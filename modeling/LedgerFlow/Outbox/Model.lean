import LedgerFlow.Common.Values

/-! Outbox events. -/

namespace LedgerFlow.Outbox

inductive OutboxStatus where
  | pending
  | processing
  | published
  | failed
  deriving DecidableEq, Repr

structure OutboxEvent where
  eventId : UUID
  aggregateId : UUID
  eventType : String
  eventVersion : ℕ
  payload : Json
  status : OutboxStatus
  retryCount : ℕ
  nextRetryAt : Option Timestamp
  claimedAt : Option Timestamp
  createdAt : Timestamp
  publishedAt : Option Timestamp
  lastError : Option String
  deriving DecidableEq

/-- The row `create_outbox_event` adds, with the defaults filled in when it is flushed. -/
def createOutboxEvent (eventId aggregateId : UUID) (eventType : String) (payload : Json)
    (createdAt : Timestamp) : OutboxEvent where
  eventId := eventId
  aggregateId := aggregateId
  eventType := eventType
  eventVersion := 1
  payload := payload
  status := .pending
  retryCount := 0
  nextRetryAt := none
  claimedAt := none
  createdAt := createdAt
  publishedAt := none
  lastError := none

def maxRetries : ℕ := 5
def maxRetryDelay : ℕ := 60

def claimTimeoutSeconds : ℤ := 30

namespace OutboxEvent

/-! The attributes that each function of the service assigns. -/

def claimed (now : Timestamp) (event : OutboxEvent) : OutboxEvent :=
  { event with status := .processing, claimedAt := some now }

def recovered (event : OutboxEvent) : OutboxEvent := { event with status := .pending, claimedAt := none }

def published (now : Timestamp) (event : OutboxEvent) : OutboxEvent :=
  { event with
    status := .published, publishedAt := some now, lastError := none, nextRetryAt := none, claimedAt := none }

/-- `mark_failed` up to the check of the retries. -/
def failedOnce (error : String) (event : OutboxEvent) : OutboxEvent :=
  { event with
    retryCount := event.retryCount + 1, lastError := some (String.ofList (error.toList.take 1000)),
        claimedAt := none }

/-- `mark_failed` when the retries are used up. -/
def gaveUp (error : String) (event : OutboxEvent) : OutboxEvent :=
  { event.failedOnce error with status := .failed, nextRetryAt := none }

/-- `mark_failed` when there is another try. -/
def retried (error : String) (now : Timestamp) (event : OutboxEvent) : OutboxEvent :=
  let failed := event.failedOnce error
  { failed with
    status := .pending, nextRetryAt := some (now + seconds (min (2 ^ failed.retryCount) maxRetryDelay : ℕ)) }

/-- What an assignment makes of a column: the `UPDATE` sets it only if the session has changed it. -/
def column {α : Type} [DecidableEq α] (loaded edited stored : α) : α := if edited = loaded then stored else edited

/-- The row after the `UPDATE` of a session that has loaded and edited it. -/
def merge (row loaded edited : OutboxEvent) : OutboxEvent :=
  { row with
    status := column loaded.status edited.status row.status
    retryCount := column loaded.retryCount edited.retryCount row.retryCount
    nextRetryAt := column loaded.nextRetryAt edited.nextRetryAt row.nextRetryAt
    claimedAt := column loaded.claimedAt edited.claimedAt row.claimedAt
    publishedAt := column loaded.publishedAt edited.publishedAt row.publishedAt
    lastError := column loaded.lastError edited.lastError row.lastError }

def Unchanged (loaded edited : OutboxEvent) : Prop :=
  edited.status = loaded.status ∧ edited.retryCount = loaded.retryCount ∧
    edited.nextRetryAt = loaded.nextRetryAt ∧
    edited.claimedAt = loaded.claimedAt ∧ edited.publishedAt = loaded.publishedAt ∧
      edited.lastError = loaded.lastError

instance (loaded edited : OutboxEvent) : Decidable (Unchanged loaded edited) :=
  inferInstanceAs (Decidable (_ ∧ _ ∧ _ ∧ _ ∧ _ ∧ _))

end OutboxEvent
end LedgerFlow.Outbox
