import LedgerFlow.Consumers.Projection
import LedgerFlow.Ledger.Idempotency

/-! Whether the events of the ledger mean to the consumer what the ledger has posted: those of deposits and
withdrawals do, those of transfers are refused. -/

namespace LedgerFlow.Consumers
open Concurrency Ledger

def accounts : Request → List UUID
  | .createDeposit accountId _ => [accountId]
  | .createWithdrawal accountId _ => [accountId]
  | .createTransfer fromAccountId toAccountId _ _ => [fromAccountId, toAccountId]
  | _ => []

def entered (db : Tables) (transactionId accountId : UUID) : ℤ :=
  (((db.entriesOf transactionId).filter (·.accountId = accountId)).map (·.amount.unscaled)).sum

/-- In some run of the ledger service a step from `s` to `t` commits `transaction` with
`event`, for a call that names no system account. -/
structure Writes (env : Deployment) (s t : State (Ledger.machine env)) (transaction : Transaction)
    (event : Outbox.OutboxEvent) : Prop where
  reached : ∃ w : Ledger.World, w.Opening ∧
    (Ledger.machine env).Runs (Ledger.machine env).anything ((Ledger.machine env).initial w) s
  called : ∃ p choice proc, s.procs p = some proc ∧ (Ledger.machine env).step s (.step p choice) = some t ∧
    ∀ x ∈ accounts proc.request, ¬t.world.db.IsSystemCash x
  committed : transaction ∈ t.world.db.transactions ∧ transaction ∉ s.world.db.transactions
  written : event ∈ t.world.db.events ∧ event ∉ s.world.db.events

def InRange (cash : UUID → Prop) (change : UUID → ℤ) (w : World) : Prop :=
  ∀ x, ¬cash x → (change x).natAbs < 10 ^ 18 ∧ ∀ n : ℤ, projected x w = n →
    (n + change x).natAbs < 10 ^ 18

/-- A message is taken without an exception, and adds its change to each account that is
not the system account and nothing to that one. -/
def Applies (p : ℕ) (cash : UUID → Prop) (change : UUID → ℤ) (message : Message) (w : World) : Prop :=
  ∃ w', machine.alone p .proceed (processMessage message) w = some (.ok (), w') ∧
    (∀ x, ¬cash x → projected x w' = projected x w + change x) ∧ ∀ x, cash x →
      projected x w' = projected x w

variable {env : Deployment} {s t : State (Ledger.machine env)} {transaction : Transaction}
  {event : Outbox.OutboxEvent} {p : ℕ} {w w' : World} {message : Message}

theorem entered_append (db : Tables) (P : Posting) (fresh : P.transaction.transactionId ∉ db.ids)
    (consistent : db.Consistent) (x : UUID) : entered (db ++ P.rows) P.transaction.transactionId x =
      (if P.payer = x then P.debit.unscaled else 0) + if P.payee = x then P.credit.unscaled else 0 := by
  rw [entered, consistent.entriesOf_posting fresh]
  simp only [Posting.rows, List.filter_cons, decide_eq_true_eq, List.filter_nil]
  split_ifs <;> simp

theorem Writes.posting (writes : Writes env s t transaction event) : ∃ request P,
    PostedBy env s.world.db request P ∧ t.world.db = s.world.db ++ P.rows ∧ P.transaction = transaction ∧
      P.event = event ∧ (∀ x ∈ accounts request, ¬t.world.db.IsSystemCash x) ∧
      ∀ x, entered t.world.db transaction.transactionId x =
        (if P.payer = x then P.debit.unscaled else 0) + if P.payee = x then P.credit.unscaled else 0 := by
  obtain ⟨w, opening, runs⟩ := writes.reached
  obtain ⟨p, choice, proc, found, stepped, others⟩ := writes.called
  have covered := covers_all opening runs
  obtain ⟨new, old⟩ := writes.committed
  obtain ⟨newEvent, oldEvent⟩ := writes.written
  rcases Machine.step_cases stepped with ⟨_, _, same, _⟩ |
    ⟨_, _, proc', stmt, next, result, w', same, found', rest, executed, rfl⟩ | ⟨_, _, same, _⟩ |
      ⟨_, _, same, _⟩ |
    ⟨_, _, same, _⟩
  · cases same
  · cases same
    cases found.symm.trans found'
    rcases ((Ledger.sound env _).guar_of_step covered found rest executed).1.commits with same |
      ⟨rows, _, commits, grown, _⟩
    · exact absurd (same ▸ new) old
    · have grown : w'.db = s.world.db ++ rows := grown
      simp only [grown, Tables.append_transactions, Tables.append_events, List.mem_append] at new newEvent others ⊢
      cases commits with
      | opens => exact absurd (new.resolve_left old) List.not_mem_nil
      | posts P posted fresh =>
        obtain rfl := List.mem_singleton.1 (new.resolve_left old)
        obtain rfl := List.mem_singleton.1 (newEvent.resolve_left oldEvent)
        exact ⟨proc.request, P, posted, rfl, rfl, rfl, others,
          entered_append _ _ fresh covered.inv.consistent⟩
  · cases same
  · cases same
  · cases same

/-! One message, handled alone. -/

section
variable {eventId : UUID} {eventType : String} {accountId : UUID} {value : Decimal.Number}

theorem alone_markEventProcessed (eventType : String) (free : w.processed.Free p eventId)
    (fresh : ¬(w.processed.visible p eventId).isSome) (stores : varchar 100 eventType = some eventType) :
    machine.alone p .proceed (markEventProcessed eventId (.str eventType)) w =
      some (.ok true, { w with processed := w.processed.draft p eventId ⟨eventId, eventType, w.clock⟩ }) := by
  have executed : exec p (.insertProcessed eventId (.str eventType) w.clock) .proceed w =
      some (.ok (), { w with processed := w.processed.draft p eventId ⟨eventId, eventType, w.clock⟩ }) := by
    simp only [exec, stores, if_pos free, if_neg fresh]
  calc
    _ = machine.alone p .proceed (.call (.insertProcessed eventId (.str eventType) w.clock) _) w := rfl
    _ = machine.alone p .proceed _ _ := Machine.alone_call executed
    _ = _ := rfl

theorem alone_applyDelta (free : w.projections.Free p accountId) {excluded : Balance}
    (stored : Balance.ofNumber value = some excluded) {row : AccountBalanceProjection}
    (written : upserted accountId excluded w.clock (w.projections.visible p accountId) = some row) :
    machine.alone p .proceed (applyDelta accountId value) w =
      some (.ok (), { w with projections := w.projections.draft p accountId row }) := by
  have executed : exec p (.upsert accountId value w.clock) .proceed w =
      some (.ok (), { w with projections := w.projections.draft p accountId row }) := by
    simp only [exec, stored, if_pos free, written]
  calc
    _ = machine.alone p .proceed (.call (.upsert accountId value w.clock) checked) w := rfl
    _ = machine.alone p .proceed (checked (.ok ())) _ := Machine.alone_call executed
    _ = _ := rfl

theorem World.Opening.unseen (opening : w.Opening) (fresh : eventId ∉ registered w) :
    ¬(w.processed.visible p eventId).isSome := by
  rw [Store.visible_of_drafts (opening.processed.drafts p), AList.lookup_isSome]
  simpa [registered, AList.mem_keys] using fresh

theorem processMessage_eq (identified : eventIdOf message.value = .ok eventId)
    (typed : message.value.item "event_type" = .ok (.str eventType)) :
    processMessage message = (processEvent message eventId (.str eventType)).attempt (fun error => do
      rollback
      .raise error) >>= fun unacknowledged => if unacknowledged then commitMessageOffset message else .ret () := by
  cases carried : message.value.item "event_id" with
  | error error =>
    rw [eventIdOf, carried] at identified
    cases identified
  | ok value =>
    rw [eventIdOf, carried] at identified
    have reads : value.uuid = .ok eventId := identified
    simp only [processMessage, carried, reads, typed, checked_ok, Prog.ret_bind]

theorem alone_processMessage (p : ℕ) (opening : w.Opening) (fresh : eventId ∉ registered w)
    (identified : eventIdOf message.value = .ok eventId)
    (typed : message.value.item "event_type" = .ok (.str eventType))
    (stores : varchar 100 eventType = some eventType)
    (decoded : deltas message.value = .ok [(accountId, value)]) {excluded : Balance}
    (stored : Balance.ofNumber value = some excluded) {row : AccountBalanceProjection}
    (written : upserted accountId excluded w.clock (w.projections.rows.lookup accountId) = some row) :
    ∃ w', machine.alone p .proceed (processMessage message) w = some (.ok (), w') ∧ w'.Opening ∧
      registered w' = insert eventId (registered w) ∧
      ∀ x, projected x w' = projected x w + sumOn x [(accountId, value)] := by
  have closed : Closed p w := ⟨opening.processed.drafts p, opening.projections.drafts p⟩
  have unseen := opening.unseen (p := p) fresh
  have visible : w.projections.visible p accountId = w.projections.rows.lookup accountId :=
    Store.visible_of_drafts closed.projections
  have written : upserted accountId excluded w.clock (w.projections.visible p accountId) = some row :=
    visible ▸ written
  have registers := alone_markEventProcessed eventType (.of_unlocked (opening.processed.locks eventId)) unseen stores
  have decodes : machine.alone p .proceed (applyBalanceProjection message.value)
      { w with processed := w.processed.draft p eventId ⟨eventId, eventType, w.clock⟩ } =
        some (.ok (), { w with
          processed := w.processed.draft p eventId ⟨eventId, eventType, w.clock⟩
          projections := w.projections.draft p accountId row }) := by
    rw [applyBalanceProjection_eq, decoded]
    refine Machine.alone_bind (alone_applyDelta (w := { w with processed := w.processed.draft p eventId _ })
      ?_ stored written)
    exact .of_unlocked (opening.projections.locks accountId)
  have balance : row.balance.cents = (w.projections.visible p accountId).elim 0 (·.balance.cents) + cents value :=
    Balance.cents_ofNumber stored ▸ cents_upserted written
  have working := (closed.register unseen ⟨eventId, eventType, w.clock⟩).upsert balance
  have processes : machine.alone p .proceed (processEvent message eventId (.str eventType)) w =
      some (.ok true, { w with
        processed := (w.processed.draft p eventId ⟨eventId, eventType, w.clock⟩).commit p
        projections := (w.projections.draft p accountId row).commit p }) :=
    (Machine.alone_bind registers).trans (Machine.alone_bind decodes)
  have registers := working.registers decoded
  refine ⟨{ w with
    processed := (w.processed.draft p eventId ⟨eventId, eventType, w.clock⟩).commit p
    projections := (w.projections.draft p accountId row).commit p
    offsets := Function.update w.offsets (message.topic, message.partition) (some (message.offset + 1)) }, ?_,
    ⟨opening.processed.commit_draft, opening.projections.commit_draft⟩, registers.registered, fun x => ?_⟩
  · rw [processMessage_eq identified typed]
    exact Machine.alone_bind (Machine.alone_attempt processes)
  · exact (registers.projected x).trans (by rw [delta_ok decoded]; rfl)

theorem alone_raised (p : ℕ) (opening : w.Opening) (fresh : eventId ∉ registered w)
    (identified : eventIdOf message.value = .ok eventId)
    (typed : message.value.item "event_type" = .ok (.str eventType))
    (stores : varchar 100 eventType = some eventType) {error : PyError}
    (raises : machine.alone p .proceed (applyBalanceProjection message.value)
      { w with processed := w.processed.draft p eventId ⟨eventId, eventType, w.clock⟩ } =
        some (.error error, w')) :
    ∃ w', machine.alone p .proceed (processMessage message) w = some (.error error, w') := by
  have registers := alone_markEventProcessed eventType (.of_unlocked (opening.processed.locks eventId))
    (opening.unseen (p := p) fresh) stores
  rw [processMessage_eq identified typed]
  exact ⟨_, Machine.alone_bind_error ((Machine.alone_attempt_error
    ((Machine.alone_bind registers).trans (Machine.alone_bind_error raises))).trans rfl)⟩

theorem alone_refused (p : ℕ) (opening : w.Opening) (fresh : eventId ∉ registered w)
    (identified : eventIdOf message.value = .ok eventId)
    (typed : message.value.item "event_type" = .ok (.str eventType))
    (stores : varchar 100 eventType = some eventType) {error : PyError}
    (refused : deltas message.value = .error error) :
    ∃ w', machine.alone p .proceed (processMessage message) w = some (.error error, w') := by
  apply alone_raised p opening fresh identified typed stores
  rw [applyBalanceProjection_eq, refused]
  rfl

end

/-! The payloads of the three operations, as the consumer decodes them. -/

section
variable {account : Accounts.Account} {amount : Decimal}

@[simp] theorem accountPayload_account_id :
    (accountPayload transaction account amount).item "account_id" = .ok (.str account.accountId.str) := by
  simp [accountPayload]

@[simp] theorem accountPayload_amount :
    (accountPayload transaction account amount).item "amount" = .ok (.str amount.str) := by
  simp [accountPayload]

@[simp] theorem transferPayload_source_account_id {a b : UUID} {currency : String} :
    (transferPayload transaction a b amount currency).item "source_account_id" =
    .error (.keyError "source_account_id") := by
  simp [transferPayload]

theorem deltas_deposit (typed : event.eventType = "DEPOSIT_POSTED")
    (carried : event.payload = accountPayload transaction account amount) :
    deltas (Outbox.message event) = .ok [(account.accountId, .finite amount)] := by
  simp [deltas, typed, carried, Json.Is, Json.uuid_str, Json.decimal_str, bind, Except.bind]

theorem deltas_withdrawal (typed : event.eventType = "WITHDRAWAL_POSTED")
    (carried : event.payload = accountPayload transaction account amount) {negated : Decimal}
    (negation : amount.neg = some negated) :
    deltas (Outbox.message event) = .ok [(account.accountId, .finite negated)] := by
  simp [deltas, typed, carried, Json.Is, Json.uuid_str, Json.decimal_str, negate, negation, bind, Except.bind]

/-- The consumer looks for keys that the ledger does not write. -/
theorem deltas_transfer (typed : event.eventType = "TRANSFER_POSTED") {a b : UUID} {currency : String}
    (carried : event.payload = transferPayload transaction a b amount currency) :
    deltas (Outbox.message event) = .error (.keyError "source_account_id") := by
  simp [deltas, typed, carried, Json.Is, bind, Except.bind]

end

theorem ofNumber_finite {d : Decimal} (fits : (Numeric.quantize 2 d).natAbs < 10 ^ 18) :
    Balance.ofNumber (.finite d) = some (.number ⟨Numeric.quantize 2 d, fits⟩) := by
  simp only [Balance.ofNumber, Numeric.cast, dif_pos fits, Option.map_some]

theorem upserted_of_fits {accountId : UUID} (excluded : Numeric 18 2) (updatedAt : Timestamp)
    (fits : ∀ n : ℤ, projected accountId w = n → (n + excluded.unscaled).natAbs < 10 ^ 18) :
    ∃ row, upserted accountId (.number excluded) updatedAt (w.projections.rows.lookup accountId) = some row := by
  cases found : w.projections.rows.lookup accountId with
  | none => exact ⟨_, rfl⟩
  | some row =>
    cases balance : row.balance with
    | nan => exact ⟨_, by rw [upserted, balance]; rfl⟩
    | number n =>
      have inRange := fits n.unscaled (by simp only [projected, found, Option.elim_some, balance, Balance.cents])
      exact ⟨_, by rw [upserted, balance, Balance.add, dif_pos inRange]; rfl⟩

theorem applies_single {eventId : UUID} {eventType : String} {accountId : UUID} {d : Decimal} {cash : UUID → Prop}
    {change : UUID → ℤ} (opening : w.Opening) (fresh : eventId ∉ registered w)
    (identified : eventIdOf message.value = .ok eventId)
    (typed : message.value.item "event_type" = .ok (.str eventType))
    (stores : varchar 100 eventType = some eventType) (decoded : deltas message.value = .ok [(accountId, .finite d)])
    (other : ¬cash accountId) (units : change accountId = Numeric.quantize 2 d)
    (nowhere : ∀ x, ¬cash x → accountId ≠ x → change x = 0) (range : InRange cash change w) :
    Applies p cash change message w := by
  obtain ⟨small, fits⟩ := range accountId other
  rw [units] at small fits
  obtain ⟨row, written⟩ := upserted_of_fits ⟨_, small⟩ w.clock fits
  obtain ⟨w', executed, _, _, projects⟩ := alone_processMessage p opening fresh identified typed stores decoded
    (ofNumber_finite small) written
  refine ⟨w', executed, fun x ordinary => ?_, fun x isCash => ?_⟩
  · rw [projects]
    by_cases same : accountId = x
    · subst same
      rw [sumOn_singleton_self, units]
      rfl
    · rw [sumOn_singleton_ne same, nowhere x ordinary same]
      rfl
  · have different : accountId ≠ x := fun same => other (same ▸ isCash)
    rw [projects, sumOn_singleton_ne different, add_zero]

theorem not_applies {eventId : UUID} {eventType : String} {error : PyError} {cash : UUID → Prop}
    {change : UUID → ℤ}
    (opening : w.Opening) (fresh : eventId ∉ registered w) (identified : eventIdOf message.value = .ok eventId)
    (typed : message.value.item "event_type" = .ok (.str eventType)) (stores : varchar 100 eventType = some eventType)
    (refused : deltas message.value = .error error) : ¬Applies p cash change message w := by
  rintro ⟨w', executed, _⟩
  obtain ⟨w'', raised⟩ := alone_refused p opening fresh identified typed stores refused
  cases executed.symm.trans raised

/-- The consumer takes the published event of a committed transaction and makes of it what the ledger has entered,
exactly when it is no transfer. -/
theorem applies_iff (writes : Writes env s t transaction event) (published : Outbox.Published event message.value)
    (opening : w.Opening) (first : event.eventId ∉ registered w)
    (range : InRange t.world.db.IsSystemCash (entered t.world.db transaction.transactionId) w) :
    Applies p t.world.db.IsSystemCash (entered t.world.db transaction.transactionId) message w ↔
      transaction.transactionType ≠ .transfer := by
  obtain ⟨request, P, posted, grown, rfl, rfl, others, entries⟩ := writes.posting
  have unchanged := Outbox.published_eq published
  have identified : eventIdOf message.value = .ok P.event.eventId := by
    rw [unchanged, eventIdOf_message]
  have typed : message.value.item "event_type" = .ok (.str P.event.eventType) := by
    rw [unchanged, Outbox.message_event_type]
  cases posted with
  | deposit account system amount transaction debit credit eventId eventAt found active cash isCash kind
      keyless stored =>
    have paid : t.world.db.IsSystemCash system.accountId := by
      rw [grown]
      exact Tables.IsSystemCash.append ⟨system, cash, rfl, isCash⟩
    have ordinary := others account.accountId List.mem_cons_self
    have different : system.accountId ≠ account.accountId := fun same => ordinary (same ▸ paid)
    simp only [kind, ne_eq, reduceCtorEq, not_false_eq_true, iff_true]
    refine applies_single opening first identified typed
      (show varchar 100 "DEPOSIT_POSTED" = some "DEPOSIT_POSTED" by decide +kernel)
      (by rw [unchanged]; exact deltas_deposit rfl rfl) ordinary ?_ ?_ range
    · rw [entries, if_neg different, if_pos rfl, zero_add, Numeric.cast_unscaled stored.credited]
    · intro x other apart
      have notPaid : system.accountId ≠ x := fun same => other (same ▸ paid)
      rw [entries, if_neg notPaid, if_neg apart, add_zero]
  | withdrawal account system amount transaction debit credit eventId eventAt total found active cash isCash
      kind keyless stored =>
    obtain ⟨negated, negation, debited⟩ := stored.debited
    have paid : t.world.db.IsSystemCash system.accountId := by
      rw [grown]
      exact Tables.IsSystemCash.append ⟨system, cash, rfl, isCash⟩
    have ordinary := others account.accountId List.mem_cons_self
    have different : system.accountId ≠ account.accountId := fun same => ordinary (same ▸ paid)
    simp only [kind, ne_eq, reduceCtorEq, not_false_eq_true, iff_true]
    refine applies_single opening first identified typed
      (show varchar 100 "WITHDRAWAL_POSTED" = some "WITHDRAWAL_POSTED" by decide +kernel)
      (by rw [unchanged]; exact deltas_withdrawal rfl rfl negation)
      ordinary ?_ ?_ range
    · rw [entries, if_pos rfl, if_neg different, add_zero, Numeric.cast_unscaled debited]
    · intro x other apart
      have notPaid : system.accountId ≠ x := fun same => other (same ▸ paid)
      rw [entries, if_neg apart, if_neg notPaid, add_zero]
  | transfer source destination amount key transaction debit credit eventId eventAt total found found'
      different active active' currencies short kind =>
    simp only [kind, ne_eq, not_true_eq_false, iff_false]
    exact not_applies opening first identified typed
      (show varchar 100 "TRANSFER_POSTED" = some "TRANSFER_POSTED" by decide +kernel)
      (by rw [unchanged]; exact deltas_transfer rfl rfl)

/-! One posting of the sample bank on its way to a consumer. -/

def pocketMoney : Posting where
  transaction := ⟨10, .deposit, .posted, some "Deposit", none, none, 0⟩
  payer := 1
  payee := 2
  debit := ⟨-100, by decide⟩
  credit := ⟨100, by decide⟩
  event := Outbox.createOutboxEvent 11 10 "DEPOSIT_POSTED"
    (accountPayload ⟨10, .deposit, .posted, some "Deposit", none, none, 0⟩ alice oneRupee.value) 0

def rentPayment : Posting where
  transaction := rent
  payer := 2
  payee := 3
  debit := savings.debit
  credit := savings.credit
  event := Outbox.createOutboxEvent 11 10 "TRANSFER_POSTED" (transferPayload rent 2 3 hundred.value "INR") 0

def lastStep (before : List (Action (Ledger.machine sample))) : Option (Option Request × Tables × Tables) :=
  ((Ledger.machine sample).run (fun _ _ => true) ((Ledger.machine sample).initial bank) before).bind fun s =>
    ((Ledger.machine sample).step s (.step 0 .proceed)).map fun t =>
      (requestOf 0 s, (s.world : Ledger.World).db, (t.world : Ledger.World).db)

theorem bank_cash {P : Posting} {x : UUID} (cash : (bank.db ++ P.rows).IsSystemCash x) : x = 1 := by
  obtain ⟨account, member, rfl, isCash⟩ := cash
  simp only [Tables.append_accounts, bank, savings, Posting.rows, List.append_nil, List.mem_cons, List.not_mem_nil,
    or_false] at member
  rcases member with rfl | rfl | rfl
  · rfl
  · exact absurd isCash (by decide)
  · exact absurd isCash (by decide)

theorem writes_of_lastStep {before : List (Action (Ledger.machine sample))} {request : Request} {P : Posting}
    (executed : lastStep before = some (some request, bank.db, bank.db ++ P.rows)) (named : 1 ∉ accounts request)
    (identified : P.transaction.transactionId = 10 ∧ P.event.eventId = 11) :
    ∃ s t, Writes sample s t P.transaction P.event ∧ t.world.db = bank.db ++ P.rows := by
  obtain ⟨s, reached, executed⟩ := Option.bind_eq_some_iff.1 executed
  obtain ⟨t, stepped, observed⟩ := Option.map_eq_some_iff.1 executed
  simp only [Prod.mk.injEq] at observed
  obtain ⟨asked, old, grown⟩ := observed
  obtain ⟨proc, found, rfl⟩ := Option.map_eq_some_iff.1 asked
  refine ⟨s, t, ⟨⟨bank, bank_opening, .of_run (fun _ _ _ => trivial) reached⟩,
    ⟨0, .proceed, proc, found, stepped, ?_⟩, ⟨?_, ?_⟩, ⟨?_, ?_⟩⟩, grown⟩
  · intro x listed cash
    rw [grown] at cash
    exact named (bank_cash cash ▸ listed)
  · rw [grown]
    exact List.mem_append_right _ List.mem_cons_self
  · rw [old]
    intro member
    have same := congrArg Transaction.transactionId (List.mem_singleton.1 member)
    rw [identified.1] at same
    exact absurd same (by decide)
  · rw [grown]
    exact List.mem_append_right _ List.mem_cons_self
  · rw [old]
    intro member
    have same := congrArg Outbox.OutboxEvent.eventId (List.mem_singleton.1 member)
    rw [identified.2] at same
    exact absurd same (by decide)

def shelf (event : Outbox.OutboxEvent) : Outbox.World where
  events := { rows := AList.singleton 11 event, drafts := fun _ => ∅, locks := fun _ => none }
  clock := 0
  log := []

def publish : List (Action Outbox.machine) :=
  [.start 0 (100 : ℕ), .step 0 .proceed, .step 0 (.order []), .step 0 .proceed, .step 0 .proceed,
    .step 0 (.order [11]), .step 0 .proceed, .step 0 .proceed, .step 0 .proceed]

theorem published_of_run (identified : event.eventId = 11)
    (executed : (Outbox.machine.run (fun _ _ => true) (Outbox.machine.initial (shelf event)) publish).map
      (fun s => (s.world : Outbox.World).log) = some [(Outbox.kafkaLedgerTopic, Outbox.message event)]) :
    Outbox.Published event (Outbox.message event) := by
  obtain ⟨s, reached, sent⟩ := Option.map_eq_some_iff.1 executed
  have stored : ∀ eventId row, (shelf event).events.rows.lookup eventId = some row → eventId = 11 ∧
      row = event := by
    intro eventId row found
    have member := AList.mem_keys.1 (AList.lookup_isSome.1
        (show ((shelf event).events.rows.lookup eventId).isSome by rw [found]; rfl))
    obtain rfl : eventId = 11 := by simpa [shelf] using member
    cases found
    exact ⟨rfl, rfl⟩
  refine ⟨shelf event, s, Outbox.kafkaLedgerTopic,
    ⟨⟨fun _ => rfl, fun _ => rfl⟩, fun eventId row found => ?_⟩, rfl,
    fun eventId row found _ => (stored eventId row found).2, .of_actions ?_ reached, ?_,
      Outbox.message_event_id event⟩
  · obtain ⟨rfl, rfl⟩ := stored eventId row found
    exact identified
  · intro a member u eventId aggregateId eventType payload createdAt same
    subst same
    simp [publish] at member
  · rw [sent]
    exact List.mem_cons_self

theorem inRange_of_small {P : Posting} (identified : P.transaction.transactionId = 10)
    (small : P.debit.unscaled.natAbs + P.credit.unscaled.natAbs < 10 ^ 18) :
    InRange (bank.db ++ P.rows).IsSystemCash (entered (bank.db ++ P.rows) P.transaction.transactionId)
    emptyTables := by
  intro x _
  have entries := entered_append bank.db P (by rw [identified]; decide) bank_opening.consistent x
  have bound : (entered (bank.db ++ P.rows) P.transaction.transactionId x).natAbs < 10 ^ 18 := by
    rw [entries]
    split_ifs <;> omega
  refine ⟨bound, fun n nothing => ?_⟩
  have zero : n = 0 := (WithTop.coe_inj.1 nothing).symm
  rwa [zero, zero_add]

theorem deposit_applies : ∃ s t : State (Ledger.machine sample),
    Writes sample s t pocketMoney.transaction pocketMoney.event ∧
    Applies 0 t.world.db.IsSystemCash (entered t.world.db 10)
      ⟨"ledger-events", 0, 0, Outbox.message pocketMoney.event⟩ emptyTables := by
  have executed : lastStep ((deposit 0 oneRupee).take 11) =
      some (some (.createDeposit 2 oneRupee), bank.db, bank.db ++ pocketMoney.rows) := by
    decide +kernel
  obtain ⟨s, t, writes, grown⟩ := writes_of_lastStep executed (by decide) ⟨rfl, rfl⟩
  refine ⟨s, t, writes, (applies_iff writes (published_of_run rfl rfl) emptyTables_opening
    List.not_mem_nil ?_).2 nofun⟩
  rw [grown]
  exact inRange_of_small rfl (by decide)

/-- A transfer is committed and its event published, and the consumer refuses it. -/
theorem transfer_refused : ∃ s t : State (Ledger.machine sample),
    Writes sample s t rentPayment.transaction rentPayment.event ∧
    Outbox.Published rentPayment.event (Outbox.message rentPayment.event) ∧ emptyTables.Opening ∧
    rentPayment.event.eventId ∉ registered emptyTables ∧
    InRange t.world.db.IsSystemCash (entered t.world.db 10) emptyTables ∧
    ¬Applies 0 t.world.db.IsSystemCash (entered t.world.db 10)
      ⟨"ledger-events", 0, 0, Outbox.message rentPayment.event⟩ emptyTables := by
  have executed : lastStep ((startTransfer 0 "rent" ++ finishTransfer 0).take 16) =
      some (some (.createTransfer 2 3 hundred "rent"), bank.db, bank.db ++ rentPayment.rows) := by
    decide +kernel
  obtain ⟨s, t, writes, grown⟩ := writes_of_lastStep executed (by decide) ⟨rfl, rfl⟩
  refine ⟨s, t, writes, published_of_run rfl rfl, emptyTables_opening, List.not_mem_nil, ?_, ?_⟩
  · rw [grown]
    exact inRange_of_small rfl (by decide)
  · exact not_applies emptyTables_opening List.not_mem_nil (eventIdOf_message _) (Outbox.message_event_type _)
      (show varchar 100 "TRANSFER_POSTED" = some "TRANSFER_POSTED" by decide +kernel) (deltas_transfer rfl rfl)

end LedgerFlow.Consumers
