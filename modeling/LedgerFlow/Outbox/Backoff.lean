import LedgerFlow.Outbox.Sessions
import LedgerFlow.Outbox.Whole

/-! Backoff: after a failure an event is left alone for the delay of its retry count,
and for good when the retries are used up. -/

namespace LedgerFlow.Outbox
open Concurrency

def delay (retryCount : ℕ) : ℤ := seconds (min (2 ^ retryCount) maxRetryDelay : ℕ)

theorem delay_mono {k n : ℕ} (fewer : k ≤ n) : delay k ≤ delay n := by
  have power : 2 ^ k ≤ 2 ^ n := Nat.pow_le_pow_right (by omega) fewer
  unfold delay seconds
  omega

/-- What is left of a failure at `since` that has brought the retry count to `k`, whatever happens later. -/
structure PutOff (since : Timestamp) (k : ℕ) (event : OutboxEvent) : Prop where
  counted : k ≤ event.retryCount
  waits : event.status = .pending ∨ event.status = .processing →
    k < maxRetries ∧ ∃ retry, event.nextRetryAt = some retry ∧ since + delay k ≤ retry

variable {row row' : OutboxEvent} {now since : Timestamp} {k : ℕ}

theorem putOff_failed (fewer : k ≤ row.retryCount + 1) (later : since ≤ now) (error : String) :
    PutOff since k (row.failed now error) := by
  unfold OutboxEvent.failed
  split_ifs with exhausted
  · constructor
    · exact fewer
    · intro open_
      simp [OutboxEvent.gaveUp] at open_
  · constructor
    · exact fewer
    · intro _
      have left : row.retryCount + 1 < maxRetries := not_le.1 exhausted
      refine ⟨by omega, now + delay (row.retryCount + 1), rfl, ?_⟩
      have longer := delay_mono fewer
      linarith

theorem PutOff.edits (putOff : PutOff since k row) (later : since ≤ now) {session : Session}
    (edits : session.Edits now row row') : PutOff since k row' := by
  cases edits with
  | recovers limit stale => exact ⟨putOff.counted, fun _ => putOff.waits (.inr stale.1)⟩
  | claims limit due => exact ⟨putOff.counted, fun _ => putOff.waits (.inl due.1)⟩
  | publishes =>
    constructor
    · exact putOff.counted
    · intro open_
      simp [OutboxEvent.published] at open_
  | fails error =>
    have counted := putOff.counted
    exact putOff_failed (by omega) later error

theorem PutOff.due (putOff : PutOff since k row) (due : Due now row) : k < maxRetries ∧
    since + delay k ≤ now := by
  obtain ⟨left, retry, waits, late⟩ := putOff.waits (.inl due.1)
  exact ⟨left, late.trans (due.2 retry waits)⟩

variable {w w₁ w₂ w₃ w₄ : World} {p q : ℕ} {eventId : UUID} {error : String}
  {order order' : List UUID} {limit : ℕ} {returned claimed : List OutboxEvent}

theorem backoff_respected (opening : w.Opening) (earlier : Moments w w₁)
    (fails : Commits p order (.markFailed eventId error) w₁ returned w₂)
    (counted : w₂.events.rows.lookup eventId = some row)
    (later : Moments w₂ w₃) (claims : Commits q order' (.claimPending limit) w₃ claimed w₄)
    (early : w₃.clock < w₁.clock + delay row.retryCount ∨ maxRetries ≤ row.retryCount) :
    ∀ event ∈ claimed, event.eventId ≠ eventId := by
  intro event member same
  have opening₁ := (Moments.opening opening earlier).1
  obtain ⟨opening₂, clock, _⟩ := fails.edits opening₁
  have putOff : PutOff w₁.clock row.retryCount row := by
    have failed := fails.failed opening₁
    rw [counted] at failed
    obtain ⟨before, _, rfl⟩ := Option.map_eq_some_iff.1 failed.symm
    apply putOff_failed _ (le_refl _)
    unfold OutboxEvent.failed
    split_ifs <;> rfl
  obtain ⟨row₃, stored, putOff₃⟩ := Moments.keeps
    (fun _ _ _ _ since putOff edits => putOff.edits since edits) opening₂ clock.ge
    counted putOff later
  obtain ⟨claimedRow, stored', due⟩ := claims.returned (Moments.opening opening₂ later).1 member
  rw [same] at stored'
  cases stored.symm.trans stored'
  have now := putOff₃.due due
  rcases early with early | exhausted
  · linarith
  · omega

/-- A send fails, and a second later another worker looks for events. -/
theorem backoff_respected_sample : ∃ (w₂ w₃ w₄ : World) (returned claimed : List OutboxEvent),
    Commits 0 [] (.markFailed 5 "timeout") outbox returned w₂ ∧ Moments w₂ w₃ ∧
      Commits 1 [] (.claimPending 100) w₃ claimed w₄ ∧ ∀ event ∈ claimed, event.eventId ≠ 5 := by
  have failed : (machine.alone 0 (.order []) (Session.markFailed 5 "timeout").code outbox).bind (fun ended =>
      (World.tick (.elapse 1000000) ended.2).bind fun w₃ =>
        (machine.alone 1 (.order []) (Session.claimPending 100).code w₃).map fun ended' =>
          (ended.1.toOption.isSome, ended'.1.toOption.isSome, (World.clock ended.2, w₃.clock),
            ((World.events ended.2).rows.lookup 5).map (·.retryCount))) =
      some (true, true, (0, 1000000), some 1) := by
    decide +kernel
  obtain ⟨⟨outcome, w₂⟩, executed, rest⟩ := Option.bind_eq_some_iff.1 failed
  obtain ⟨w₃, ticked, rest⟩ := Option.bind_eq_some_iff.1 rest
  obtain ⟨⟨outcome', w₄⟩, executed', ended⟩ := Option.map_eq_some_iff.1 rest
  simp only [Prod.mk.injEq] at ended
  obtain ⟨returns, returns', ⟨_, clock⟩, counted⟩ := ended
  obtain ⟨row, stored, count⟩ := Option.map_eq_some_iff.1 counted
  cases outcome with
  | error error => cases returns
  | ok returned =>
    cases outcome' with
    | error error => cases returns'
    | ok claimed =>
      have later : Moments w₂ w₃ := .single (.tick _ ticked)
      refine ⟨w₂, w₃, w₄, returned, claimed, executed, later, executed', ?_⟩
      apply backoff_respected outbox_opening .refl executed stored later executed'
      left
      rw [clock, count]
      decide

end LedgerFlow.Outbox
