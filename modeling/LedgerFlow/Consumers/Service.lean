import LedgerFlow.Consumers.Database

/-! The ledger event consumer: `process_message` with the registration of the event and
its projection, statement by statement. -/

namespace LedgerFlow.Consumers
open Concurrency

def checked {α : Type} : Except PyError α → Code α
  | .ok value => .ret value
  | .error error => .raise error

def now : Code Timestamp := .call .now .ret
def commit : Code Unit := .call .commit .ret
def rollback : Code Unit := .call .rollback .ret

def markEventProcessed (eventId : UUID) (eventType : Json) : Code Bool := do
  let processedAt ← now
  let flushed ← .call (.insertProcessed eventId eventType processedAt) .ret
  match flushed with
  | .ok () => .ret true
  | .error .integrityError =>
    rollback
    .ret false
  | .error error => .raise error

def applyDelta (accountId : UUID) (delta : Decimal.Number) : Code Unit := do
  let now ← now
  .call (.upsert accountId delta now) checked

def applyBalanceProjection (event : Json) : Code Unit := do
  let eventType ← checked (event.item "event_type")
  let payload ← checked (event.item "payload")
  if eventType.Is "DEPOSIT_POSTED" then do
    let account ← checked (payload.item "account_id")
    let accountId ← checked account.uuid
    let value ← checked (payload.item "amount")
    let amount ← checked value.decimal
    applyDelta accountId amount
  else if eventType.Is "WITHDRAWAL_POSTED" then do
    let account ← checked (payload.item "account_id")
    let accountId ← checked account.uuid
    let value ← checked (payload.item "amount")
    let amount ← checked value.decimal
    let negated ← checked (negate amount)
    applyDelta accountId negated
  else if eventType.Is "TRANSFER_POSTED" then do
    let source ← checked (payload.item "source_account_id")
    let sourceAccountId ← checked source.uuid
    let destination ← checked (payload.item "destination_account_id")
    let destinationAccountId ← checked destination.uuid
    let value ← checked (payload.item "amount")
    let amount ← checked value.decimal
    let negated ← checked (negate amount)
    applyDelta sourceAccountId negated
    applyDelta destinationAccountId amount
  else .ret ()

def commitMessageOffset (message : Message) : Code Unit :=
  .call (.commitOffset message.topic message.partition (message.offset + 1)) checked

/-- The `try` block inside the session: whether the message is still to be acknowledged. -/
def processEvent (message : Message) (eventId : UUID) (eventType : Json) : Code Bool := do
  let registered ← markEventProcessed eventId eventType
  if registered then do
    applyBalanceProjection message.value
    commit
    .ret true
  else do
    rollback
    commitMessageOffset message
    .ret false

def processMessage (message : Message) : Code Unit := do
  let value ← checked (message.value.item "event_id")
  let eventId ← checked value.uuid
  let eventType ← checked (message.value.item "event_type")
  let unacknowledged ← (processEvent message eventId eventType).attempt fun error => do
    rollback
    .raise error
  if unacknowledged then commitMessageOffset message else .ret ()

/-- Any number of `process_message` calls against one database and one clock that never goes back. -/
def machine : Machine language where
  World := World
  Choice := Choice
  Tick := ℕ
  Request := Message
  Value := Unit
  body := processMessage
  exec := exec
  close p w := { w with processed := w.processed.finish p, projections := w.projections.finish p }
  tick elapsed w := some { w with clock := w.clock + elapsed }
  failure := .failure

end LedgerFlow.Consumers
