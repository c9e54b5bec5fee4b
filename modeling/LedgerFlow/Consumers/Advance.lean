import LedgerFlow.Concurrency.Serial
import LedgerFlow.Consumers.Agreement
import LedgerFlow.Consumers.Liveness
import LedgerFlow.Consumers.Reader

/-! How the consumer comes past a message: by itself, once what is in progress has come to its end, and
whenever the message is of a registered event or asks for what the projection can hold. -/

namespace LedgerFlow.Consumers
open Concurrency

variable {w w' : World} {p n : ℕ} {message : Message} {eventId : UUID} {eventType : String}

theorem alone_markEventProcessed_known (opening : w.Opening) (known : eventId ∈ registered w)
    (stores : varchar 100 eventType = some eventType) :
    ∃ w', machine.alone p .proceed (markEventProcessed eventId (.str eventType)) w = some (.ok false, w') ∧
    w'.Opening ∧
      registered w' = registered w := by
  have stored : (w.processed.visible p eventId).isSome := by
    rw [Store.visible_of_drafts (opening.processed.drafts p), AList.lookup_isSome]
    simpa [registered, AList.mem_keys] using known
  have executed : exec p (.insertProcessed eventId (.str eventType) w.clock) .proceed w =
      some (.error .integrityError, w) := by
    simp only [exec, stores, if_pos (Store.Free.of_unlocked (opening.processed.locks eventId)), if_pos stored]
  refine ⟨{ w with processed := w.processed.finish p, projections := w.projections.finish p }, ?_,
    ⟨opening.processed.finish, opening.projections.finish⟩, rfl⟩
  calc
    _ = machine.alone p .proceed (.call (.insertProcessed eventId (.str eventType) w.clock) _) w := rfl
    _ = machine.alone p .proceed _ _ := Machine.alone_call executed
    _ = _ := rfl

/-- A message whose event is registered is acknowledged, and nothing else happens. -/
theorem alone_known (p : ℕ) (opening : w.Opening) (known : eventId ∈ registered w)
    (identified : eventIdOf message.value = .ok eventId)
    (typed : message.value.item "event_type" = .ok (.str eventType))
    (stores : varchar 100 eventType = some eventType) :
    ∃ w', machine.alone p .proceed (processMessage message) w = some (.ok (), w') ∧ w'.Opening ∧
    registered w' = registered w := by
  obtain ⟨u, marked, opening', same⟩ := alone_markEventProcessed_known (p := p) opening known stores
  let done : World := { u with
    processed := u.processed.finish p
    projections := u.projections.finish p
    offsets := Function.update u.offsets (message.topic, message.partition) (some (message.offset + 1)) }
  have processes : machine.alone p .proceed (processEvent message eventId (.str eventType)) w =
      some (.ok false, done) :=
    Machine.alone_bind marked
  refine ⟨done, ?_, ⟨opening'.processed.finish, opening'.projections.finish⟩, same⟩
  rw [processMessage_eq identified typed]
  exact Machine.alone_bind (Machine.alone_attempt processes)

namespace Reader
variable {s t : Reader} {u : State machine} {partition : ℕ} {value : Json}

def Action.Undisturbed : Action → Prop
  | .publish _ _ => False
  | .call (.abort _) => False
  | _ => True

abbrev Proceeds : Reader → Reader → Prop := Relation.ReflTransGen fun s t => ∃ a, Action.Undisturbed a ∧
    s.step a = some t

/-- The consumer is between two messages, no transaction is open, and the calls from the
n-th on have not been made. -/
structure Ready (s : Reader) (n : ℕ) : Prop where
  waiting : s.Waiting
  opening : World.Opening s.calls.world
  idle : ∀ q, n ≤ q → s.calls.procs q = none

def GoesOn (_ : State machine) (a : Concurrency.Action machine) : Prop :=
  (∃ p choice, a = .step p choice) ∨ ∃ p, a = .close p

theorem proceeds_of_runs (later : machine.Runs GoesOn s.calls u) : Proceeds s { s with calls := u } := by
  induction later with
  | refl => exact .refl
  | tail _ stepped ih =>
    obtain ⟨a, goesOn, stepped⟩ := stepped
    rcases goesOn with ⟨q, choice, rfl⟩ | ⟨q, rfl⟩
    · refine ih.tail ⟨.call (.step q choice), trivial, ?_⟩
      simp only [step, isStart, Bool.false_eq_true, if_false, stepped]
    · refine ih.tail ⟨.call (.close q), trivial, ?_⟩
      simp only [step, isStart, Bool.false_eq_true, if_false, stepped]

theorem readies (opening : w.Opening) (runs : machine.Runs InOrder (machine.initial w) s.calls) :
    ∃ t n, Proceeds s t ∧ t.Ready n ∧ t.log = s.log := by
  obtain ⟨u, later, closed, ended, n, idle⟩ := quiets opening runs fun _ _ => .proceed
  have first : Proceeds s { s with calls := u } := by
    apply proceeds_of_runs
    apply later.mono
    intro r a unhindered
    rcases unhindered with ⟨q, choice, same, _⟩ | ⟨q, same⟩
    · exact .inl ⟨q, choice, same⟩
    · exact .inr ⟨q, same⟩
  have stopped : Stopped { s with calls := u } := fun q _ proc found => ended q proc found
  have restarted : step { s with calls := u } .restart =
      some { s with
        calls := u
        position := fun partition => committed partition u.world
        current := none } := if_pos stopped
  exact ⟨_, n, first.tail ⟨.restart, trivial, restarted⟩,
    ⟨fun _ absurd => (by cases absurd), closed, idle⟩, rfl⟩

/-- The call for the next message of a partition, executed alone. -/
theorem Ready.advance (ready : s.Ready n) (stored : (s.log partition)[s.position partition]? = some value)
    (performed : machine.alone n .proceed
      (processMessage ⟨Outbox.kafkaLedgerTopic, partition, s.position partition, value⟩)
      s.calls.world = some (.ok (), w')) (closed : w'.Opening) :
    ∃ t, Proceeds s t ∧ t.Ready (n + 1) ∧ t.log = s.log ∧
      t.position = Function.update s.position partition (s.position partition + 1) ∧
      registered t.calls.world = registered w' := by
  let message : Message := ⟨Outbox.kafkaLedgerTopic, partition, s.position partition, value⟩
  let calls : State machine := ⟨s.calls.world,
    Function.update s.calls.procs n (some (machine.spawn message s.calls.world))⟩
  let fetched : Reader := { s with
    calls
    position := Function.update s.position partition (s.position partition + 1)
    current := some n }
  have started : machine.step s.calls (.start n message) = some calls := by
    simp only [Machine.step, ready.idle n le_rfl, calls]
  have fetch : s.step (.fetch n partition) = some fetched := by
    simp only [step, stored, if_pos ready.waiting]
    rw [started]
  have own : ∀ r choice, GoesOn r (.step n choice) := fun _ choice => .inl ⟨n, choice, rfl⟩
  obtain ⟨u, later, reached, ⟨after, found, finished, returns⟩, others⟩ :=
    Machine.Executes.runs (M := machine) (s := calls)
    (Function.update_self ..) (Machine.Executes.of_alone performed) own
  have ends : machine.step u (.close n) = some { u with world := machine.close n u.world } := by
    simp only [Machine.step, found, if_pos finished]
  have handled : Proceeds fetched { fetched with calls := { u with world := machine.close n u.world } } :=
    proceeds_of_runs (later.tail ⟨_, .inr ⟨n, rfl⟩, ends⟩)
  refine ⟨_, Relation.ReflTransGen.head ⟨.fetch n partition, trivial, fetch⟩ handled,
    ⟨?_, ?_, ?_⟩, rfl, rfl, ?_⟩
  · intro q current proc found'
    cases current
    cases found.symm.trans found'
    rw [returns () rfl]
    rfl
  · change World.Opening (machine.close n u.world)
    rw [reached]
    exact ⟨closed.processed.finish, closed.projections.finish⟩
  · intro q beyond
    change u.procs q = none
    rw [others q (by omega)]
    exact (Function.update_of_ne (by omega) ..).trans (ready.idle q (by omega))
  · change registered (machine.close n u.world) = registered w'
    rw [reached]
    rfl

end Reader
end LedgerFlow.Consumers
