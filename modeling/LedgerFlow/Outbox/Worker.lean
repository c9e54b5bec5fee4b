import LedgerFlow.Outbox.Database

/-! The outbox service and the worker's `process_batch`, statement by statement. -/

namespace LedgerFlow.Outbox
open Concurrency

def checked {α : Type} : Except PyError α → Code α
  | .ok value => .ret value
  | .error error => .raise error

def now : Code Timestamp := .call .now .ret
def commit : Code Unit := .call .commit .ret

/-- The flush of one loaded row: nothing is sent where no attribute has changed. -/
def flush (loaded edited : OutboxEvent) : Code Unit :=
  if loaded.Unchanged edited then .ret () else .call (.update loaded edited) checked

/-- The flush of the rows that an assignment was made to; the session has locked them
all, so that their order does not matter. -/
def flushAll (edit : OutboxEvent → OutboxEvent) : List OutboxEvent → Code Unit
  | [] => .ret ()
  | event :: rest => do
    flush event (edit event)
    flushAll edit rest

def claimPendingEvents (limit : ℕ) : Code (List OutboxEvent) := do
  let now ← now
  let events ← .call (.selectPending now limit) .ret
  flushAll (·.claimed now) events
  commit
  .ret (events.map (·.claimed now))

def recoverStaleEvents (limit : ℕ) : Code ℕ := do
  let now ← now
  let staleBefore := now - seconds claimTimeoutSeconds
  let events ← .call (.selectStale staleBefore limit) .ret
  flushAll (·.recovered) events
  commit
  .ret events.length

def markPublished (event : OutboxEvent) : Code OutboxEvent := do
  let now ← now
  .ret (event.published now)

def markFailed (event : OutboxEvent) (error : String) : Code OutboxEvent :=
  if maxRetries ≤ (event.failedOnce error).retryCount then .ret (event.gaveUp error)
  else do
    let now ← now
    .ret (event.retried error now)

def kafkaLedgerTopic : String := "ledger-events"

def message (event : OutboxEvent) : Json :=
  .obj [("event_id", .str event.eventId.str), ("aggregate_id", .str event.aggregateId.str),
    ("event_type", .str event.eventType), ("event_version", .int event.eventVersion), ("payload", event.payload),
    ("created_at", .str event.createdAt.isoformat)]

def markEvent (eventId : UUID) (mark : OutboxEvent → Code OutboxEvent) : Code Unit := do
  let result ← .call (.get eventId) .ret
  match result with
  | none => .ret ()
  | some loaded => do
    let edited ← mark loaded
    flush loaded edited
    commit

/-- One turn of the loop over the claimed events, with what it adds to `processed`. -/
def publish (event : OutboxEvent) : Code ℕ := do
  let sent ← .call (.send kafkaLedgerTopic (message event)) .ret
  match sent with
  | .error error =>
    markEvent event.eventId (markFailed · error)
    .ret 0
  | .ok () =>
    markEvent event.eventId markPublished
    .ret 1

def publishAll : List OutboxEvent → Code ℕ
  | [] => .ret 0
  | event :: rest => do
    let sent ← publish event
    let processed ← publishAll rest
    .ret (sent + processed)

def processBatch (batchSize : ℕ) : Code ℕ := do
  let _ ← recoverStaleEvents batchSize
  let events ← claimPendingEvents batchSize
  publishAll events

/-- Any number of `process_batch` calls, with any batch sizes, against one database, one
topic and one clock that never goes back. -/
def machine : Machine language where
  World := World
  Choice := Choice
  Tick := Tick
  Request := ℕ
  Value := ℕ
  body := processBatch
  exec := exec
  close p w := { w with events := w.events.finish p }
  tick := World.tick
  failure := .failure

end LedgerFlow.Outbox
