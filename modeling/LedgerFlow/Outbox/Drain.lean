import LedgerFlow.Outbox.Batch
import LedgerFlow.Outbox.Rows

/-! The outbox can be worked off from wherever it is: once time has passed, batches of any size bring every
event to its end, but for those that no session takes up any more. -/

namespace LedgerFlow.Outbox
open Concurrency Table

/-- The workers run on, with batches of this size: none is cut off, and nothing is posted. -/
def Works (size : ℕ) (_ : State machine) : Action machine → Prop
  | .start _ batchSize => batchSize = size
  | .step _ _ => True
  | .abort _ => False
  | .close _ => True
  | .tick e => isOwn (.tick e)

/-- The event has been published or given up, or it is claimed and nobody knows since when: such an event is
neither due nor stale, whatever the time. -/
inductive Ended (event : OutboxEvent) : Prop where
  | published (status : event.status = .published)
  | failed (status : event.status = .failed)
  | orphaned (status : event.status = .processing) (unknown : event.claimedAt = none)

structure Ripe (now : Timestamp) (event : OutboxEvent) : Prop where
  retry : ∀ retry ∈ event.nextRetryAt, retry ≤ now
  claimed : ∀ claimed ∈ event.claimedAt, claimed ≤ now - seconds claimTimeoutSeconds

variable {p size : ℕ} {w w₁ : World} {s : State machine} {event row : OutboxEvent} {eventId : UUID}
  {stale due : List OutboxEvent}

theorem Ripe.ended {now : Timestamp} (ripe : Ripe now event) (still : ¬Waiting now event) : Ended event := by
  cases status : event.status with
  | published => exact .published status
  | failed => exact .failed status
  | pending => exact absurd (.inl ⟨status, ripe.retry⟩) still
  | processing =>
    cases claim : event.claimedAt with
    | none => exact .orphaned status claim
    | some claimed => exact absurd (.inr ⟨status, claimed, claim, ripe.claimed claimed claim⟩) still

theorem time_enough (now : Timestamp) (times : List Timestamp) : ∃ m : ℕ, ∀ time ∈ times,
    time ≤ now + m := by
  induction times with
  | nil => exact ⟨0, fun _ absurd => (List.not_mem_nil absurd).elim⟩
  | cons first times ih =>
    obtain ⟨m, later⟩ := ih
    refine ⟨max m (first - now).toNat, fun time member => ?_⟩
    have more : (m : ℤ) ≤ (max m (first - now).toNat : ℕ) := Int.ofNat_le.2 (le_max_left ..)
    rcases List.mem_cons.1 member with rfl | member
    · have enough : ((time - now).toNat : ℤ) ≤ (max m (time - now).toNat : ℕ) :=
        Int.ofNat_le.2 (le_max_right ..)
      have own := Int.self_le_toNat (time - now)
      linarith
    · have before := later time member
      linarith

theorem ripens (w : World) : ∃ m : ℕ, ∀ eventId row, w.table eventId = some row → Ripe (w.clock + m) row := by
  obtain ⟨m, enough⟩ := time_enough w.clock (w.events.rows.entries.flatMap fun entry =>
    entry.2.nextRetryAt.toList ++ (entry.2.claimedAt.map (· + seconds claimTimeoutSeconds)).toList)
  refine ⟨m, fun eventId row stored => ?_⟩
  have listed : ⟨eventId, row⟩ ∈ w.events.rows.entries := AList.mem_lookup_iff.1 stored
  constructor
  · intro retry planned
    apply enough
    exact List.mem_flatMap.2 ⟨_, listed, List.mem_append_left _ (Option.mem_toList.2 planned)⟩
  · intro claimed since
    have late : claimed + seconds claimTimeoutSeconds ≤ w.clock + m := by
      apply enough
      refine List.mem_flatMap.2 ⟨_, listed, List.mem_append_right _ (Option.mem_toList.2 ?_)⟩
      exact Option.mem_map.2 ⟨claimed, since, rfl⟩
    linarith

theorem Batch.ripe (batch : Batch size w stale due (List.replicate due.length .sent) w₁)
    (ripe : ∀ eventId row, w.table eventId = some row → Ripe w.clock row)
    (stored : w₁.table eventId = some row) :
    Ripe w₁.clock row := by
  rw [batch.clock]
  rw [batch.table] at stored
  rcases write_cases stored with ⟨settled, _⟩ | ⟨_, before⟩
  · have published : ∃ event ∈ due, row = event.published w.clock := by
      obtain ⟨event, came, member, sent, rfl⟩ : ∃ event came, event ∈ due ∧
        came ∈ List.replicate due.length Outcome.sent ∧
          row = Outcome.settles w.clock event came := by
        rw [← List.map_uncurry_zip_eq_zipWith] at settled
        obtain ⟨⟨event, came⟩, both, same⟩ := List.mem_map.1 settled
        exact ⟨event, came, (List.of_mem_zip both).1, (List.of_mem_zip both).2, same.symm⟩
      rw [List.eq_of_mem_replicate sent]
      exact ⟨event, member, rfl⟩
    obtain ⟨event, _, rfl⟩ := published
    exact ⟨fun _ absurd => (by cases absurd), fun _ absurd => (by cases absurd)⟩
  · rcases write_cases before with ⟨recovered, _⟩ | ⟨_, old⟩
    · obtain ⟨event, member, rfl⟩ := List.mem_map.1 recovered
      have planned := (ripe _ event (batch.recovers.stored event member).1).retry
      exact ⟨planned, fun _ absurd => (by cases absurd)⟩
    · exact ripe _ row old

theorem drains (positive : 0 < size) {n : ℕ} (opening : World.Opening s.world)
    (ripe : ∀ eventId row, World.table s.world eventId = some row → Ripe (World.clock s.world) row)
    (idle : ∀ q, n ≤ q → s.procs q = none) :
    ∃ t, machine.Runs (Works size) s t ∧ ∀ eventId row,
    World.table t.world eventId = some row → Ended row := by
  induction size' : World.backlog s.world using Nat.strong_induction_on generalizing s n with
  | _ backlog ih =>
    by_cases waits : ∃ eventId row, World.table s.world eventId = some row ∧ Waiting (World.clock s.world) row
    · obtain ⟨eventId, row, stored, waiting⟩ := waits
      obtain ⟨stale, due, u, executes, batch⟩ := batch_sent n size opening
      obtain ⟨t, runs, reached, others⟩ := Machine.Executes.runs_request (Works size)
        (idle n le_rfl) executes rfl (fun _ _ => trivial) fun _ => trivial
      have table : World.table t.world = u.table := by rw [reached]; rfl
      have clock : World.clock t.world = u.clock := by rw [reached]; rfl
      have opening' : World.Opening t.world := by
        rw [reached]
        exact ⟨batch.opening.store.finish, batch.opening.keyed⟩
      have member : eventId ∈ places (World.support s.world) (Waiting (World.clock s.world))
          (World.table s.world) :=
        mem_places.2 ⟨mem_support stored, row, stored, waiting⟩
      have some' : 0 < World.backlog s.world := Finset.card_pos.2 ⟨eventId, member⟩
      have same : World.backlog t.world = u.backlog := by rw [reached]; rfl
      have less := batch.backlog_le opening
      have ripe' : ∀ eventId row, World.table t.world eventId = some row → Ripe (World.clock t.world) row := by
        rw [table, clock]
        exact fun _ _ => batch.ripe ripe
      have idle' : ∀ q, n + 1 ≤ q → t.procs q = none := by
        intro q beyond
        rw [others q (by omega)]
        exact idle q (by omega)
      obtain ⟨v, later, ended⟩ := ih _ (by omega) opening' ripe' idle' rfl
      exact ⟨v, runs.trans later, ended⟩
    · refine ⟨s, .refl, fun eventId row stored => (ripe eventId row stored).ended fun waiting => ?_⟩
      exact waits ⟨eventId, row, stored, waiting⟩

theorem works_off (opening : w.Opening) (runs : machine.Runs machine.anything (machine.initial w) s)
    (positive : 0 < size) :
    ∃ t, machine.Runs (Works size) s t ∧ ∀ eventId row,
    World.table t.world eventId = some row → Ended row := by
  obtain ⟨u, first, opening', n, idle⟩ := quiets opening runs fun _ _ => .proceed
  obtain ⟨m, ripe⟩ := ripens u.world
  have elapsed : machine.step u (.tick (.elapse m)) =
      some { u with world := { u.world with clock := u.world.clock + m } } := rfl
  obtain ⟨t, last, ended⟩ := drains (s := { u with world := { u.world with clock := u.world.clock + m } })
    positive ⟨opening'.store, opening'.keyed⟩ ripe idle
  have quiet : machine.Runs (Works size) s u := by
    apply first.mono
    intro s a unhindered
    rcases unhindered with ⟨p, choice, rfl, _⟩ | ⟨p, rfl⟩
    · trivial
    · trivial
  have passes : Works size u (.tick (.elapse m)) := rfl
  exact ⟨t, (quiet.tail ⟨_, passes, elapsed⟩).trans last, ended⟩

end LedgerFlow.Outbox
