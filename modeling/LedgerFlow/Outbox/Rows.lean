import LedgerFlow.Outbox.Sessions

/-! Rows of the outbox appear when they are posted and never disappear, and only rows that exist are locked. -/

namespace LedgerFlow.Outbox
open Concurrency

def World.LocksRows (w : World) : Prop := ∀ eventId, w.events.locks eventId ≠ none → eventId ∈ w.events.rows

def World.SameRows (w w' : World) : Prop := ∀ eventId, eventId ∈ w'.events.rows ↔ eventId ∈ w.events.rows

def Tick.isPost : Tick → Bool
  | .elapse _ => false
  | .post _ _ _ _ _ => true

def isOwn : Action machine → Bool
  | .tick e => !Tick.isPost e
  | _ => true

variable {p : ℕ} {w w' : World} {s t : State machine} {stmt : Stmt} {choice : Choice} {result : stmt.Result}

theorem World.LocksRows.finish (locks : w.LocksRows) : World.LocksRows { w with events := w.events.finish p } := by
  intro eventId locked
  apply locks
  intro unlocked
  apply locked
  simp [Store.finish, unlocked]

theorem mem_rows_of_visible (locks : w.LocksRows) (valid : w.Valid) {eventId : UUID} {row : OutboxEvent}
    (seen : w.events.visible p eventId = some row) : eventId ∈ w.events.rows := by
  have either : eventId ∈ w.events.drafts p ∪ w.events.rows :=
    AList.lookup_isSome.1 (by rw [show AList.lookup _ _ = _ from seen]; rfl)
  rcases AList.mem_union.1 either with drafted | stored
  · apply locks
    rw [valid.store p eventId drafted]
    exact Option.some_ne_none p
  · exact stored

theorem World.LocksRows.select (locks : w.LocksRows) {Matches : OutboxEvent → Prop} [DecidablePred Matches]
    {key : OutboxEvent → Timestamp} {limit : ℕ} {eventIds : List UUID} {rows : List OutboxEvent}
    (selected : w.selectForUpdate p Matches key limit eventIds = some (rows, w')) : w'.LocksRows ∧
    w.SameRows w' := by
  simp only [selectForUpdate] at selected
  split_ifs at selected with answers
  cases selected
  constructor
  · intro eventId locked
    by_cases chosen : eventId ∈ eventIds.take limit
    · exact AList.mem_keys.2 (List.mem_filter.1 (answers.1.mem_iff.1 (List.mem_of_mem_take chosen))).1
    · apply locks
      simpa [Store.lockAll, chosen] using locked
  · exact fun _ => Iff.rfl

theorem World.LocksRows.exec (locks : w.LocksRows) (valid : w.Valid)
    (executed : exec p stmt choice w = some (result, w')) : w'.LocksRows ∧ w.SameRows w' := by
  cases stmt with
  | now | get =>
    cases executed
    exact ⟨locks, fun _ => Iff.rfl⟩
  | selectPending | selectStale =>
    cases choice with
    | order eventIds => exact locks.select executed
    | _ => cases executed
  | update loaded edited =>
    obtain ⟨_, ⟨_, _, rfl⟩ | ⟨row, seen, _, rfl⟩⟩ := exec_update choice executed
    · exact ⟨locks, fun _ => Iff.rfl⟩
    · constructor
      · intro eventId locked
        by_cases same : eventId = loaded.eventId
        · rw [same]
          exact mem_rows_of_visible locks valid seen
        · apply locks
          simpa [Store.draft, same] using locked
      · exact fun _ => Iff.rfl
  | commit =>
    cases executed
    have same : w.SameRows { w with events := w.events.commit p } := by
      intro eventId
      constructor
      · intro member
        rcases AList.mem_union.1 member with drafted | stored
        · apply locks
          rw [valid.store p eventId drafted]
          exact Option.some_ne_none p
        · exact stored
      · exact fun stored => AList.mem_union.2 (.inr stored)
    refine ⟨fun eventId locked => (same eventId).2 (locks eventId fun unlocked => locked ?_), same⟩
    simp [Store.commit, Store.finish, unlocked]
  | send topic document =>
    cases choice with
    | sendFails error delivered =>
      cases executed
      split_ifs <;> exact ⟨locks, fun _ => Iff.rfl⟩
    | _ =>
      cases executed
      exact ⟨locks, fun _ => Iff.rfl⟩

theorem rows_of_step {a : Action machine} (covered : contract.Covers Unused s) (locks : World.LocksRows s.world)
    (own : isOwn a) (stepped : machine.step s a = some t) : World.LocksRows t.world ∧
    World.SameRows s.world t.world := by
  rcases Machine.step_cases stepped with ⟨p, request, rfl, fresh, rfl⟩ |
    ⟨p, choice, proc, stmt, next, result, w', rfl, found, rest, executed, rfl⟩ |
    ⟨p, proc, rfl, found, running, rfl⟩ | ⟨p, proc, rfl, found, finished, rfl⟩ | ⟨e, w', rfl, ticked, rfl⟩
  · exact ⟨locks, fun _ => Iff.rfl⟩
  · exact locks.exec covered.inv executed
  · exact ⟨locks, fun _ => Iff.rfl⟩
  · exact ⟨World.LocksRows.finish locks, fun _ => Iff.rfl⟩
  · cases e with
    | elapse microseconds =>
      cases ticked
      exact ⟨locks, fun _ => Iff.rfl⟩
    | post => cases own

end LedgerFlow.Outbox
