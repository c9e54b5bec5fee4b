import LedgerFlow.Outbox.Sessions
import LedgerFlow.Outbox.Whole

/-! No event gets stuck: one that is neither published nor given up will be selected again. -/

namespace LedgerFlow.Outbox
open Concurrency

namespace OutboxEvent

structure Regular (event : OutboxEvent) : Prop where
  claimed : event.status = .processing ↔ event.claimedAt.isSome
  waits : event.nextRetryAt.isSome ↔ (event.status = .pending ∨ event.status = .processing) ∧
      0 < event.retryCount
  left : event.status = .pending ∨ event.status = .processing → event.retryCount < maxRetries
  exhausted : event.status = .failed → maxRetries ≤ event.retryCount
  published : event.status = .published → event.publishedAt.isSome ∧ event.lastError = none

/-- The queries of the worker select the event from some time on. -/
def Selected (clock : Timestamp) (event : OutboxEvent) : Prop :=
  ∃ since, clock ≤ since ∧ ∀ now, since ≤ now → Due now event ∨
    Stale (now - seconds claimTimeoutSeconds) event

variable {row row' : OutboxEvent} {now : Timestamp}

theorem regular_create (eventId aggregateId : UUID) (eventType : String) (payload : Json) (createdAt : Timestamp) :
    (createOutboxEvent eventId aggregateId eventType payload createdAt).Regular := by
  constructor <;> simp [createOutboxEvent, maxRetries]

theorem regular_failed (row : OutboxEvent) (now : Timestamp) (error : String) : (row.failed now error).Regular := by
  unfold OutboxEvent.failed
  split_ifs with exhausted
  · constructor <;> simp [gaveUp, failedOnce]
    exact exhausted
  · rw [not_le] at exhausted
    constructor <;> simp [retried, failedOnce]
    exact exhausted

theorem Regular.edits (regular : row.Regular) {session : Session} (edits : session.Edits now row row') :
    row'.Regular := by
  cases edits with
  | recovers limit stale =>
    have waits := regular.waits
    have left := regular.left
    simp only [stale.1] at waits left
    constructor <;> simp [recovered]
    · simpa using waits
    · simpa using left
  | claims limit due =>
    have waits := regular.waits
    have left := regular.left
    simp only [due.1] at waits left
    constructor <;> simp [OutboxEvent.claimed]
    · simpa using waits
    · simpa using left
  | publishes => constructor <;> simp [OutboxEvent.published]
  | fails error => exact regular_failed row now error

theorem Regular.selected (regular : row.Regular) (unpublished : row.status ≠ .published)
    (unfailed : row.status ≠ .failed) (clock : Timestamp) : row.Selected clock := by
  cases status : row.status with
  | pending =>
    refine ⟨max clock (row.nextRetryAt.getD clock), le_max_left _ _, fun now later =>
      .inl ⟨status, fun retry waits => ?_⟩⟩
    have bound := (le_max_right _ _).trans later
    rwa [Option.mem_def.1 waits, Option.getD_some] at bound
  | processing =>
    obtain ⟨t, since⟩ := Option.isSome_iff_exists.1 (regular.claimed.1 status)
    refine ⟨max clock (t + seconds claimTimeoutSeconds), le_max_left _ _, fun now later =>
      .inr ⟨status, t, since, ?_⟩⟩
    have bound := (le_max_right _ _).trans later
    linarith
  | published => exact absurd status unpublished
  | failed => exact absurd status unfailed

end OutboxEvent

def World.Fresh (w : World) : Prop :=
  ∀ eventId row, w.events.rows.lookup eventId = some row → ∃ aggregateId eventType payload createdAt,
    row = createOutboxEvent eventId aggregateId eventType payload createdAt

variable {w w' : World}

theorem regular_of_moments (opening : w.Opening) (fresh : w.Fresh) (moments : Moments w w') :
    ∀ eventId row, w'.events.rows.lookup eventId = some row → row.Regular := by
  apply Moments.all OutboxEvent.regular_create (fun _ _ _ _ regular edits => regular.edits edits) opening _ moments
  intro eventId row stored
  obtain ⟨aggregateId, eventType, payload, createdAt, rfl⟩ := fresh eventId row stored
  exact OutboxEvent.regular_create ..

theorem never_stuck (opening : w.Opening) (fresh : w.Fresh) (moments : Moments w w') {eventId : UUID}
    {row : OutboxEvent} (stored : w'.events.rows.lookup eventId = some row) :
    row.Regular ∧ (row.status ≠ .published → row.status ≠ .failed → row.Selected w'.clock) := by
  have regular := regular_of_moments opening fresh moments eventId row stored
  exact ⟨regular, fun unpublished unfailed => regular.selected unpublished unfailed w'.clock⟩

theorem outbox_fresh : outbox.Fresh := by
  intro eventId row stored
  obtain rfl := outbox_opening.keyed eventId row stored
  have own : row.eventId = 5 := by
    have member := AList.lookup_isSome.1 (Option.isSome_of_eq_some stored)
    simpa [outbox] using AList.mem_keys.1 member
  rw [own] at stored ⊢
  cases stored
  exact ⟨4, "DEPOSIT_POSTED", .obj [], 0, rfl⟩

/-- The worker that has claimed the event crashes. -/
theorem never_stuck_sample : ∃ w' row, Moments outbox w' ∧ w'.events.rows.lookup 5 = some row ∧
    row.status = .processing ∧ row.Regular ∧ row.Selected w'.clock := by
  have ran : (machine.alone 0 (.order [5]) (Session.claimPending 100).code outbox).map
      (fun ended => (ended.1.toOption.isSome, (World.events ended.2).rows.lookup 5 |>.map (·.status))) =
        some (true, some .processing) := by
    decide +kernel
  obtain ⟨⟨outcome, w'⟩, executed, ended⟩ := Option.map_eq_some_iff.1 ran
  simp only [Prod.mk.injEq] at ended
  cases outcome with
  | error error => cases ended.1
  | ok returned =>
    obtain ⟨row, stored, status⟩ := Option.map_eq_some_iff.1 ended.2
    have moments : Moments outbox w' := .single (.session 0 [5] (.claimPending 100) returned executed)
    obtain ⟨regular, selected⟩ := never_stuck outbox_opening outbox_fresh moments stored
    exact ⟨w', row, moments, stored, status, regular, selected (by simp [status]) (by simp [status])⟩

end LedgerFlow.Outbox
