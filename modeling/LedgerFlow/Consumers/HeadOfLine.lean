import LedgerFlow.Consumers.Reader

/-! A message that cannot be decoded ends every consumer that is handed it, so that no consumer comes past it:
what lies behind it in its partition is never handed to anyone. -/

namespace LedgerFlow.Consumers
open Concurrency

namespace Reader

/-- The messages of the topic that carry one event are copies of one document. -/
def Copies (content : UUID → Json) (s : Reader) : Prop :=
  ∀ partition, ∀ value ∈ s.log partition, ∀ eventId, eventIdOf value = .ok eventId → value = content eventId

/-- A consumer is handed a message of the topic, the next one at most that is not acknowledged. -/
def Handed (s : Reader) (_ : State machine) (a : Concurrency.Action machine) : Prop :=
  ∀ p message, a = .start p message → (s.log message.partition)[message.offset]? = some message.value ∧
    message.offset ≤ committed message.partition s.calls.world

variable {content : UUID → Json} {s t : Reader}

theorem stored_step {a : Action} (stepped : s.step a = some t) {k offset : ℕ} {value : Json}
    (stored : (s.log k)[offset]? = some value) : (t.log k)[offset]? = some value := by
  cases a with
  | publish partition event =>
    cases stepped
    exact stored_publish stored
  | fetch p partition =>
    obtain ⟨_, _, _, _, _, rfl⟩ := step_fetch stepped
    exact stored
  | call a =>
    obtain ⟨_, _, _, rfl⟩ := step_call stepped
    exact stored
  | restart =>
    simp only [step] at stepped
    split_ifs at stepped
    cases stepped
    exact stored

/-- The calls run by themselves, with the messages at or below the committed offsets. -/
theorem handed_of_runs (opening : s.Opening) (runs : Runs s t) :
    machine.Runs (Handed t) (machine.initial s.calls.world) t.calls := by
  induction runs with
  | refl =>
    rw [← opening.calls]
  | @tail u t runs stepped ih =>
    obtain ⟨a, stepped⟩ := stepped
    obtain ⟨trace, tracks⟩ := tracks_of_runs opening runs
    have grows := (tracks.step opening.world stepped).2
    have before : machine.Runs (Handed t) (machine.initial s.calls.world) u.calls := by
      apply ih.mono
      intro _ a handed p message same
      obtain ⟨stored, below⟩ := handed p message same
      exact ⟨stored_step stepped stored, below.trans (grows _)⟩
    cases a with
    | publish partition event =>
      cases stepped
      exact before
    | fetch p partition =>
      obtain ⟨value, calls, stored, waiting, started, rfl⟩ := step_fetch stepped
      apply before.tail ⟨_, ?_, started⟩
      intro q message same
      cases same
      have next := tracks.caught_up waiting partition
      obtain ⟨_, rfl⟩ := Machine.step_start started
      exact ⟨stored, Nat.le_of_eq next⟩
    | call a =>
      obtain ⟨calls, started, moved, rfl⟩ := step_call stepped
      apply before.tail ⟨a, ?_, moved⟩
      intro q message same
      rw [same] at started
      cases started
    | restart =>
      simp only [step] at stepped
      split_ifs at stepped
      cases stepped
      exact before

theorem delivering_of_runs (opening : s.Opening) (runs : Runs s t) (copies : t.Copies content) :
    machine.Runs (Delivering content) (machine.initial s.calls.world) t.calls := by
  apply (handed_of_runs opening runs).mono
  intro _ a handed p message same eventId identified
  exact copies message.partition message.value (List.mem_of_getElem? (handed p message same).1) eventId identified

theorem handed_of_registered (opening : s.Opening) (fresh : registered s.calls.world = ∅) (runs : Runs s t)
    (copies : t.Copies content) {eventId : UUID} (member : eventId ∈ registered t.calls.world) :
    ∃ partition offset : ℕ, (t.log partition)[offset]? = some (content eventId) ∧
    offset ≤ committed partition t.calls.world := by
  by_contra never
  have elsewhere : machine.Runs (Delivering (Function.update content eventId .null))
      (machine.initial s.calls.world) t.calls := by
    apply (handed_of_runs opening runs).mono
    intro _ a handed p message same other identified
    obtain ⟨stored, below⟩ := handed p message same
    have copy := copies message.partition message.value (List.mem_of_getElem? stored) other identified
    have different : other ≠ eventId := by
      rintro rfl
      exact never ⟨message.partition, message.offset, copy ▸ stored, below⟩
    rw [Function.update_of_ne different]
    exact copy
  obtain ⟨changes, decoded⟩ := decoded_of_runs opening.world fresh elsewhere eventId member
  rw [Function.update_self] at decoded
  cases decoded

/-- No consumer acknowledges a message that cannot be decoded. -/
theorem committed_le (opening : s.Opening) (fresh : registered s.calls.world = ∅) (runs : Runs s t)
    (copies : t.Copies content) {partition offset : ℕ} {value : Json} {error : PyError}
    (stored : (t.log partition)[offset]? = some value) (undecodable : deltas value = .error error) :
    committed partition t.calls.world ≤ offset := by
  by_contra beyond
  obtain ⟨trace, tracks⟩ := tracks_of_runs opening runs
  obtain ⟨value', eventId, stored', identified, member⟩ :=
    tracks.settled partition offset (Nat.lt_of_not_le beyond)
  cases stored.symm.trans stored'
  have delivering := delivering_of_runs opening runs copies
  obtain ⟨changes, decoded⟩ := decoded_of_runs opening.world fresh delivering eventId member
  rw [← copies partition value (List.mem_of_getElem? stored) eventId identified, undecodable] at decoded
  cases decoded

/-- A registered event has a copy that no undecodable message of its partition precedes. -/
theorem registered_ahead (opening : s.Opening) (fresh : registered s.calls.world = ∅) (runs : Runs s t)
    (copies : t.Copies content) {eventId : UUID} (member : eventId ∈ registered t.calls.world) :
    ∃ partition offset : ℕ, (t.log partition)[offset]? = some (content eventId) ∧
      ∀ earlier ≤ offset, ∀ value, (t.log partition)[earlier]? = some value → ∃ changes,
      deltas value = .ok changes := by
  obtain ⟨partition, offset, stored, reached⟩ := handed_of_registered opening fresh runs copies member
  refine ⟨partition, offset, stored, ?_⟩
  intro earlier before value stored'
  cases decoded : deltas value with
  | ok changes => exact ⟨changes, rfl⟩
  | error error =>
    have blocked := committed_le opening fresh runs copies stored' decoded
    have same : earlier = offset := by omega
    subst same
    cases stored.symm.trans stored'
    obtain ⟨changes, registers⟩ :=
      decoded_of_runs opening.world fresh (delivering_of_runs opening runs copies) eventId member
    cases decoded.symm.trans registers

end Reader
end LedgerFlow.Consumers
