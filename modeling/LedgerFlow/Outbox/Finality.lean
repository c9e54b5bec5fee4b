import LedgerFlow.Outbox.Sessions

/-! Whether PUBLISHED is final: it is, as long as a failed send is marked only while its event is still PROCESSING. -/

namespace LedgerFlow.Outbox
open Concurrency

variable {w : World} {s t : State machine}

/-- The mark of a failed send is committed only while the event is PROCESSING. -/
def MarksProcessing (s : State machine) (a : Action machine) : Prop :=
  ∀ p loaded edited row, CommitsFailure s a p loaded edited →
    s.world.events.rows.lookup loaded.eventId = some row → row.status = .processing

def PublishedFinal (ok : State machine → Action machine → Prop) : Prop :=
  ∀ {w : World} {s t : State machine} {eventId : UUID} {row : OutboxEvent}, w.Opening →
    machine.Runs ok (machine.initial w) s → machine.Runs ok s t →
    s.world.events.rows.lookup eventId = some row → row.status = .published →
    ∃ row', t.world.events.rows.lookup eventId = some row' ∧ row'.status = .published

/-- The move of a published event marks it, and leaves it published unless the mark is that of a failure. -/
theorem Moves.published {past : List (Stmt × World)} {clock : Timestamp} {row row' : OutboxEvent}
    (moves : Moves past clock row row') (published : row.status = .published)
    (kept : ∀ loaded edited w earlier, past = (.update loaded edited, w) :: earlier →
      loaded.eventId = row.eventId → ¬Fails loaded edited) : row'.status = .published := by
  cases moves with
  | recovers now claimed processing =>
    rw [published] at processing
    cases processing
  | claims now due =>
    rw [due.1] at published
    cases published
  | marks loaded edited w earlier updated same marks =>
    cases marks with
    | published now =>
      simp only [OutboxEvent.merge, OutboxEvent.column]
      split_ifs
      · exact published
      · rfl
    | failed fails => exact absurd fails (kept loaded edited w earlier updated same)

theorem published_of_step {a : Action machine} (covered : contract.Covers Unused s) (keeps : MarksProcessing s a)
    (stepped : machine.step s a = some t) {eventId : UUID} {row : OutboxEvent}
    (stored : s.world.events.rows.lookup eventId = some row) (published : row.status = .published) :
    ∃ row', t.world.events.rows.lookup eventId = some row' ∧ row'.status = .published := by
  rcases stored_of_step covered stepped stored with same |
    ⟨p, choice, proc, row', rfl, found, commits, moved, moves⟩
  · exact ⟨row, same, published⟩
  · refine ⟨row', moved, moves.published published fun loaded edited w earlier updated same fails => ?_⟩
    have own : loaded.eventId = eventId := same.trans (covered.inv.keyed eventId row stored)
    have processing := keeps p loaded edited row
        ⟨choice, proc, w, earlier, rfl, found, commits, updated, fails⟩ (own ▸ stored)
    rw [published] at processing
    cases processing

theorem published_final {eventId : UUID} {row : OutboxEvent} (opening : w.Opening)
    (reached : machine.Runs MarksProcessing (machine.initial w) s) (later : machine.Runs MarksProcessing s t)
    (stored : s.world.events.rows.lookup eventId = some row) (published : row.status = .published) :
    ∃ row', t.world.events.rows.lookup eventId = some row' ∧ row'.status = .published := by
  induction later with
  | refl => exact ⟨row, stored, published⟩
  | tail later stepped ih =>
    obtain ⟨a, keeps, stepped⟩ := stepped
    obtain ⟨row', stored', published'⟩ := ih
    exact published_of_step (covers opening (reached.trans later)) keeps stepped stored' published'

def marksProcessing : State machine → Action machine → Bool
  | s, .step p _ => (s.procs p).all fun proc => proc.past.head?.all fun executed =>
    match (executed.1 : Stmt) with
    | .update loaded edited => edited.retryCount = loaded.retryCount || statusOf loaded.eventId s = some .processing
    | _ => true
  | _, _ => true

theorem marksProcessing_of_allowed (s : State machine) (a : Action machine) (allowed : marksProcessing s a) :
    MarksProcessing s a := by
  rintro p loaded edited row ⟨choice, proc, w, earlier, rfl, found, commits, updated, fails⟩ stored
  have counted : edited.retryCount ≠ loaded.retryCount := by
    cases fails <;> exact Nat.succ_ne_self _
  simpa [marksProcessing, found, updated, counted, statusOf, stored] using allowed

/-- The first send fails and is marked, the second one succeeds. -/
theorem published_final_sample : ∃ s t : State machine, machine.Runs MarksProcessing (machine.initial outbox) s ∧
    machine.Runs MarksProcessing s t ∧ statusOf 5 s = some .published ∧ statusOf 5 t = some .published := by
  have first : (machine.run marksProcessing (machine.initial outbox)
      (claim 0 ++ fail 0 ++ [.tick (.elapse 2000000)] ++ claim 1 ++ succeed 1)).map (statusOf 5) =
        some (some .published) := by
    decide +kernel
  obtain ⟨s, executed, published⟩ := Option.map_eq_some_iff.1 first
  obtain ⟨row, stored, status⟩ := Option.map_eq_some_iff.1 published
  have second : (machine.step s (.tick (.elapse 30000000))).isSome := rfl
  obtain ⟨t, stepped⟩ := Option.isSome_iff_exists.1 second
  have reached := Machine.Runs.of_run marksProcessing_of_allowed executed
  have later : machine.Runs MarksProcessing s t := .single ⟨_, marksProcessing_of_allowed _ _ rfl, stepped⟩
  obtain ⟨row', stored', status'⟩ := published_final outbox_opening reached later stored status
  exact ⟨s, t, reached, later, published, Option.map_eq_some_iff.2 ⟨row', stored', status'⟩⟩

/-- The send of the first worker fails after the second one has published the event. -/
theorem not_published_final : ¬PublishedFinal machine.anything := by
  intro final
  have executed : (machine.run (fun _ _ => true) (machine.initial outbox)
      (claim 0 ++ [.tick (.elapse 30000000)] ++ recoverAndClaim 1 ++ succeed 1)).bind (fun s =>
        (machine.run (fun _ _ => true) s (fail 0)).map fun t => (statusOf 5 s, statusOf 5 t)) =
      some (some .published, some .pending) := by
    decide +kernel
  obtain ⟨s, reached, executed⟩ := Option.bind_eq_some_iff.1 executed
  obtain ⟨t, later, statuses⟩ := Option.map_eq_some_iff.1 executed
  simp only [Prod.mk.injEq] at statuses
  obtain ⟨row, stored, published⟩ := Option.map_eq_some_iff.1 statuses.1
  obtain ⟨row', stored', published'⟩ := final outbox_opening (.of_run (fun _ _ _ => trivial) reached)
    (.of_run (fun _ _ _ => trivial) later) stored published
  obtain ⟨row'', stored'', pending⟩ := Option.map_eq_some_iff.1 statuses.2
  cases stored'.symm.trans stored''
  rw [published'] at pending
  cases pending

end LedgerFlow.Outbox
