import LedgerFlow.Outbox.Lifecycle

/-! What the workers publish of an event: nothing but the message of the event as it was posted. -/

namespace LedgerFlow.Outbox
open Concurrency

/-! What a reader finds in a message. -/

@[simp] theorem message_event_id (event : OutboxEvent) :
    (message event).item "event_id" = .ok (.str event.eventId.str) := by
  simp [message]

@[simp] theorem message_event_type (event : OutboxEvent) :
    (message event).item "event_type" = .ok (.str event.eventType) := by
  simp [message]

@[simp] theorem message_payload (event : OutboxEvent) : (message event).item "payload" = .ok event.payload := by
  simp [message]

def Copies (event row : OutboxEvent) : Prop := row.eventId = event.eventId → message row = message event

/-- A message of some event; one that has the id of `event` is the message of `event`. -/
def Carries (event : OutboxEvent) (document : Json) : Prop := ∃ row, document = message row ∧ Copies event row

def Posts (event : OutboxEvent) (_ : State machine) (a : Action machine) : Prop :=
  ∀ eventId aggregateId eventType payload createdAt,
    a = .tick (.post eventId aggregateId eventType payload createdAt) → eventId = event.eventId →
      createOutboxEvent eventId aggregateId eventType payload createdAt = event

/-- The workers, started with `event` in the outbox or before it was posted and with an
empty topic, have sent a document with its id. -/
def Published (event : OutboxEvent) (document : Json) : Prop :=
  ∃ w s topic, World.Opening w ∧ w.log = [] ∧
    (∀ eventId row, w.events.rows.lookup eventId = some row → row.eventId = event.eventId → row = event) ∧
    machine.Runs (Posts event) (machine.initial w) s ∧ (topic, document) ∈ World.log s.world ∧
    document.item "event_id" = .ok (.str event.eventId.str)

/-- Every stored or drafted version of the event and every message of it has its posted content. -/
structure World.Keeps (event : OutboxEvent) (w : World) : Prop where
  rows : ∀ eventId row, w.events.rows.lookup eventId = some row → Copies event row
  drafts : ∀ p eventId row, (w.events.drafts p).lookup eventId = some row → Copies event row
  log : ∀ sent ∈ w.log, Carries event sent.2

def CopiesAll (event : OutboxEvent) (rows : List OutboxEvent) : Prop := ∀ row ∈ rows, Copies event row

def fine (event : OutboxEvent) : (stmt : Stmt) → stmt.Result → Prop
  | .selectPending _ _, rows => CopiesAll event rows
  | _, _ => True

def Faithful (event : OutboxEvent) : Stmt → Prop
  | .send _ document => Carries event document
  | _ => True

variable {event : OutboxEvent} {w w' : World} {p : ℕ}

theorem Copies.merge {row : OutboxEvent} (copies : Copies event row) (loaded edited : OutboxEvent) :
    Copies event (row.merge loaded edited) := copies

theorem Copies.claimed {row : OutboxEvent} (copies : Copies event row) (now : Timestamp) :
    Copies event (row.claimed now) := copies

theorem World.Keeps.visible (keeps : w.Keeps event) {eventId : UUID} {row : OutboxEvent}
    (seen : w.events.visible p eventId = some row) : Copies event row := by
  rcases AList.lookup_union_eq_some.1 seen with drafted | ⟨_, stored⟩
  · exact keeps.drafts p eventId row drafted
  · exact keeps.rows eventId row stored

theorem World.Keeps.finish (keeps : w.Keeps event) : World.Keeps event { w with events := w.events.finish p } where
  rows := keeps.rows
  drafts q eventId row drafted := by
    by_cases mine : q = p
    · subst mine
      rw [Store.drafts_finish] at drafted
      cases drafted
    · exact keeps.drafts q eventId row (by simpa [Store.finish, Function.update_of_ne mine] using drafted)
  log := keeps.log

theorem World.Keeps.commit (keeps : w.Keeps event) : World.Keeps event { w with events := w.events.commit p } where
  rows _ _ seen := keeps.visible seen
  drafts q eventId row drafted := by
    by_cases mine : q = p
    · subst mine
      rw [Store.drafts_commit] at drafted
      cases drafted
    · exact keeps.drafts q eventId row
        (by simpa [Store.commit, Store.finish, Function.update_of_ne mine] using drafted)
  log := keeps.log

theorem World.Keeps.draft (keeps : w.Keeps event) {eventId : UUID} {row : OutboxEvent}
    (copies : Copies event row) : World.Keeps event { w with events := w.events.draft p eventId row } where
  rows := keeps.rows
  drafts q id v drafted := by
    rcases Store.drafted_cases drafted with ⟨_, rfl, rfl⟩ | earlier
    · exact copies
    · exact keeps.drafts q id v earlier
  log := keeps.log

theorem World.Keeps.message (keeps : w.Keeps event) {topic : String} {document : Json}
    (carries : Carries event document) : (w.message topic document).Keeps event where
  rows := keeps.rows
  drafts := keeps.drafts
  log sent member := by
    rcases List.mem_append.1 member with earlier | new
    · exact keeps.log sent earlier
    · rw [List.mem_singleton.1 new]
      exact carries

theorem World.Keeps.tick {tick : Tick} (keeps : w.Keeps event)
    (posts : ∀ eventId aggregateId eventType payload createdAt,
      tick = .post eventId aggregateId eventType payload createdAt →
      eventId = event.eventId → createOutboxEvent eventId aggregateId eventType payload createdAt = event)
    (ticked : World.tick tick w = some w') : w'.Keeps event := by
  cases tick with
  | elapse microseconds =>
    cases ticked
    exact ⟨keeps.rows, keeps.drafts, keeps.log⟩
  | post eventId aggregateId eventType payload createdAt =>
    simp only [World.tick] at ticked
    split_ifs at ticked
    cases ticked
    refine ⟨fun id row stored own => ?_, keeps.drafts, keeps.log⟩
    rcases Store.lookup_insert_cases stored with ⟨rfl, rfl⟩ | ⟨_, earlier⟩
    · rw [posts _ _ _ _ _ rfl own]
    · exact keeps.rows id row earlier own

theorem World.Keeps.exec {stmt : Stmt} {choice : Choice} {result : stmt.Result} (keeps : w.Keeps event)
    (faithful : Faithful event stmt) (executed : exec p stmt choice w = some (result, w')) :
    fine event stmt result ∧ w'.Keeps event := by
  cases stmt with
  | now | get =>
    cases executed
    exact ⟨trivial, keeps⟩
  | selectPending now limit =>
    cases choice with
    | order eventIds =>
      obtain ⟨locked, _, rfl, found⟩ := World.selectForUpdate_cases executed
      refine ⟨fun row member => ?_, ⟨keeps.rows, keeps.drafts, keeps.log⟩⟩
      obtain ⟨id, _, seen, _⟩ := found row member
      exact keeps.visible seen
    | _ => cases executed
  | selectStale staleBefore limit =>
    cases choice with
    | order eventIds =>
      obtain ⟨locked, _, rfl, _⟩ := World.selectForUpdate_cases executed
      exact ⟨trivial, ⟨keeps.rows, keeps.drafts, keeps.log⟩⟩
    | _ => cases executed
  | update loaded edited =>
    obtain ⟨_, ⟨_, _, rfl⟩ | ⟨row, seen, _, rfl⟩⟩ := exec_update choice executed
    · exact ⟨trivial, keeps⟩
    · exact ⟨trivial, keeps.draft ((keeps.visible seen).merge loaded edited)⟩
  | commit =>
    cases executed
    exact ⟨trivial, keeps.commit⟩
  | send topic document =>
    refine ⟨trivial, ?_⟩
    rcases send_cases executed with ⟨_, rfl⟩ | ⟨error, delivered, _, rfl⟩
    · exact keeps.message faithful
    · split_ifs
      · exact keeps.message faithful
      · exact keeps

abbrev Sends {α : Type} (event : OutboxEvent) (code : Code α) (Q : α → Prop) : Prop :=
  code.Always (fine event) (Faithful event) Q

namespace Sends

theorem call {stmt : Stmt} (silent : Faithful event stmt) : Sends event (.call stmt .ret) (fine event stmt) :=
  ⟨silent, fun _ accepted => accepted⟩

theorem checked {α : Type} (result : Except PyError α) : Sends event (Outbox.checked result) fun _ => True := by
  cases result <;> trivial

theorem flush (loaded edited : OutboxEvent) : Sends event (Outbox.flush loaded edited) fun _ => True := by
  unfold Outbox.flush
  split_ifs
  · trivial
  · exact ⟨trivial, fun result _ => checked result⟩

theorem flushAll (edit : OutboxEvent → OutboxEvent) (events : List OutboxEvent) :
    Sends event (Outbox.flushAll edit events) fun _ => True := by
  induction events with
  | nil => trivial
  | cons row events ih => exact Prog.Always.bind (flush row (edit row)) fun _ _ => ih

theorem recoverStaleEvents (limit : ℕ) : Sends event (Outbox.recoverStaleEvents limit) fun _ => True :=
  .bind (call trivial) fun _ _ => .bind (call trivial) fun _ _ => .bind (flushAll _ _) fun _ _ =>
    .bind (call trivial) fun _ _ => trivial

theorem claimPendingEvents (limit : ℕ) : Sends event (Outbox.claimPendingEvents limit) (CopiesAll event) := by
  refine .bind (call trivial) fun now _ => .bind (call trivial) fun rows copies => .bind (flushAll _ _) fun _ _ =>
    .bind (call trivial) fun _ _ claimed member => ?_
  obtain ⟨row, listed, rfl⟩ := List.mem_map.1 member
  exact Copies.claimed (copies row listed) now

theorem markEvent (eventId : UUID) {mark : OutboxEvent → Code OutboxEvent}
    (marks : ∀ loaded, Sends event (mark loaded) fun _ => True) :
    Sends event (Outbox.markEvent eventId mark) fun _ => True := by
  refine .bind (call trivial) fun row _ => ?_
  cases row with
  | none => trivial
  | some loaded => exact .bind (marks loaded) fun edited _ => .bind (flush loaded edited) fun _ _ => call trivial

theorem markFailed (loaded : OutboxEvent) (error : String) :
    Sends event (Outbox.markFailed loaded error) fun _ => True := by
  unfold Outbox.markFailed
  split_ifs
  · trivial
  · exact .bind (call trivial) fun _ _ => trivial

theorem publish {claimed : OutboxEvent} (copies : Copies event claimed) :
    Sends event (Outbox.publish claimed) fun _ => True := by
  refine .bind (call ⟨claimed, rfl, copies⟩) fun sent _ => ?_
  cases sent with
  | error error => exact .bind (markEvent _ fun loaded => markFailed loaded error) fun _ _ => trivial
  | ok => exact .bind (markEvent _ fun _ => .bind (call trivial) fun _ _ => trivial) fun _ _ => trivial

theorem publishAll {events : List OutboxEvent} (copies : CopiesAll event events) :
    Sends event (Outbox.publishAll events) fun _ => True := by
  induction events with
  | nil => trivial
  | cons claimed events ih =>
    have rest : CopiesAll event events := fun row member => copies row (List.mem_cons_of_mem _ member)
    exact .bind (publish (copies claimed List.mem_cons_self)) fun _ _ => .bind (ih rest) fun _ _ => trivial

theorem processBatch (batchSize : ℕ) : Sends event (Outbox.processBatch batchSize) fun _ => True :=
  .bind (recoverStaleEvents batchSize) fun _ _ => .bind (claimPendingEvents batchSize) fun _ => publishAll

end Sends

theorem keeps_of_runs {s : State machine} (opening : w.Opening) (quiet : w.log = [])
    (stored : ∀ eventId row, w.events.rows.lookup eventId = some row →
      row.eventId = event.eventId → row = event)
    (runs : machine.Runs (Posts event) (machine.initial w) s) : World.Keeps event s.world := by
  have start : w.Keeps event := by
    refine ⟨fun id row found same => ?_, fun p id row drafted => ?_, fun sent member => ?_⟩
    · rw [stored id row found same]
    · rw [opening.store.drafts p] at drafted
      cases drafted
    · rw [quiet] at member
      cases member
  exact (Machine.Runs.always Sends.processBatch World.Keeps.exec World.Keeps.finish
    (fun keeps posts ticked => keeps.tick
      (fun _ _ _ _ _ same => posts _ _ _ _ _ (congrArg Action.tick same)) ticked) runs start).1

/-- What is published of an event is its message as it was posted, whatever has happened to it in the outbox. -/
theorem published_eq {document : Json} (published : Published event document) : document = message event := by
  obtain ⟨w, s, topic, opening, quiet, stored, runs, sent, own⟩ := published
  obtain ⟨row, rfl, same⟩ := (keeps_of_runs opening quiet stored runs).log _ sent
  simp only [message_event_id, Except.ok.injEq, Json.str.injEq] at own
  exact same (UUID.str_injective own)

end LedgerFlow.Outbox
