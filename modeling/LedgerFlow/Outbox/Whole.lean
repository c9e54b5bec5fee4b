import LedgerFlow.Outbox.Lifecycle

/-! Worker sessions taken as one step each, from the first statement to the commit. A session that crashes commits
nothing, and after a worker has crashed there are no more sessions of it. -/

namespace LedgerFlow.Outbox
open Concurrency

inductive Session where
  | recoverStale (limit : ℕ)
  | claimPending (limit : ℕ)
  | markPublished (eventId : UUID)
  | markFailed (eventId : UUID) (error : String)
  deriving DecidableEq

/-- What a session executes, with the events it returns. -/
def Session.code : Session → Code (List OutboxEvent)
  | .recoverStale limit => do
    let _ ← recoverStaleEvents limit
    .ret []
  | .claimPending limit => claimPendingEvents limit
  | .markPublished eventId => do
    markEvent eventId Outbox.markPublished
    .ret []
  | .markFailed eventId error => do
    markEvent eventId (Outbox.markFailed · error)
    .ret []

/-- A whole session of worker `p`, whose query returns its rows in the order of `eventIds`. -/
def Commits (p : ℕ) (eventIds : List UUID) (session : Session) (w : World) (returned : List OutboxEvent)
    (w' : World) : Prop :=
  machine.alone p (.order eventIds) session.code w = some (.ok returned, w')

/-- A committed session of some worker, time passing, or an event that the ledger posts. -/
inductive Moment (w w' : World) : Prop where
  | session (p : ℕ) (eventIds : List UUID) (session : Session) (returned : List OutboxEvent)
      (commits : Commits p eventIds session w returned w')
  | tick (tick : Tick) (ticked : World.tick tick w = some w')

abbrev Moments : World → World → Prop := Relation.ReflTransGen Moment

def OutboxEvent.failed (now : Timestamp) (error : String) (event : OutboxEvent) : OutboxEvent :=
  if maxRetries ≤ (event.failedOnce error).retryCount then event.gaveUp error else event.retried error now

inductive Session.Edits (now : Timestamp) (row : OutboxEvent) : Session → OutboxEvent → Prop where
  | recovers (limit : ℕ) (stale : Stale (now - seconds claimTimeoutSeconds) row) :
      Edits now row (.recoverStale limit) row.recovered
  | claims (limit : ℕ) (due : Due now row) : Edits now row (.claimPending limit) (row.claimed now)
  | publishes : Edits now row (.markPublished row.eventId) (row.published now)
  | fails (error : String) : Edits now row (.markFailed row.eventId error) (row.failed now error)

structure Editing (p : ℕ) (Matches : OutboxEvent → Prop) (edit : OutboxEvent → OutboxEvent)
    (w w' : World) : Prop where
  rows : w'.events.rows = w.events.rows
  clock : w'.clock = w.clock
  free : ∀ eventId, w'.events.Free p eventId
  others : ∀ q, q ≠ p → w'.events.drafts q = ∅
  drafts : ∀ eventId v, (w'.events.drafts p).lookup eventId = some v →
    ∃ row, w.events.rows.lookup eventId = some row ∧ Matches row ∧ v = edit row

structure Edited (Matches : OutboxEvent → Prop) (edit : OutboxEvent → OutboxEvent) (w w' : World) : Prop where
  opening : w'.Opening
  clock : w'.clock = w.clock
  rows : ∀ eventId, w'.events.rows.lookup eventId = w.events.rows.lookup eventId ∨
    ∃ row, w.events.rows.lookup eventId = some row ∧ Matches row ∧
      w'.events.rows.lookup eventId = some (edit row)

namespace OutboxEvent

theorem merge_edited (loaded edited : OutboxEvent) : edited.merge loaded edited = edited := by
  simp [merge]

theorem merge_of_unchanged {row edited : OutboxEvent} (unchanged : row.Unchanged edited) :
    row.merge row edited = row := by
  obtain ⟨status, retryCount, nextRetryAt, claimedAt, publishedAt, lastError⟩ := unchanged
  simp [merge, status, retryCount, nextRetryAt, claimedAt, publishedAt, lastError]

theorem merge_published (now : Timestamp) (row : OutboxEvent) :
    row.merge row (row.published now) = row.published now := by
  simp [merge, published]

theorem merge_failed (now : Timestamp) (error : String) (row : OutboxEvent) :
    row.merge row (row.failed now error) = row.failed now error := by
  unfold failed
  split_ifs
  · simp [merge, gaveUp, failedOnce]
  · simp [merge, retried, failedOnce]

theorem eventId_failed (now : Timestamp) (error : String) (row : OutboxEvent) :
    (row.failed now error).eventId = row.eventId := by
  unfold failed
  split_ifs <;> rfl

end OutboxEvent

section
variable {p : ℕ} {choice : Choice} {Matches : OutboxEvent → Prop} {edit : OutboxEvent → OutboxEvent}
  {w w₁ w₂ : World} {row : OutboxEvent}

namespace Editing

theorem refl (opening : w.Opening) : Editing p Matches edit w w where
  rows := rfl
  clock := rfl
  free eventId := .of_unlocked (opening.store.locks eventId)
  others q _ := opening.store.drafts q
  drafts eventId v drafted := by
    rw [opening.store.drafts p] at drafted
    cases drafted

theorem lockAll (editing : Editing p Matches edit w w₁) (eventIds : List UUID) :
    Editing p Matches edit w { w₁ with events := w₁.events.lockAll p eventIds } where
  rows := editing.rows
  clock := editing.clock
  free eventId := (editing.free eventId).lockAll eventIds
  others := editing.others
  drafts := editing.drafts

theorem visible (editing : Editing p Matches edit w w₁) {eventId : UUID}
    (stored : w.events.rows.lookup eventId = some row) :
    w₁.events.visible p eventId = some row ∨ Matches row ∧ w₁.events.visible p eventId = some (edit row) := by
  cases drafted : (w₁.events.drafts p).lookup eventId with
  | none =>
    left
    rw [Store.visible_of_undrafted (AList.lookup_eq_none.1 drafted), editing.rows, stored]
  | some v =>
    right
    obtain ⟨row', stored', matched, rfl⟩ := editing.drafts eventId v drafted
    cases stored.symm.trans stored'
    exact ⟨matched, Store.visible_of_drafted drafted⟩

theorem update (editing : Editing p Matches edit w w₁) (stored : w.events.rows.lookup row.eventId = some row)
    (matched : Matches row) (merges : row.merge row (edit row) = edit row) (choice : Choice)
    {result : Except PyError Unit}
    (executed : exec p (.update row (edit row)) choice w₁ = some (result, w₂)) :
    result = .ok () ∧ Editing p Matches edit w w₂ ∧ w₂.events.visible p row.eventId = some (edit row) := by
  obtain ⟨_, ⟨unseen, _, _⟩ | ⟨before, seen, rfl, rfl⟩⟩ := exec_update choice executed
  · rcases editing.visible stored with same | ⟨_, same⟩
    · cases unseen.symm.trans same
    · cases unseen.symm.trans same
  · have merged : before.merge row (edit row) = edit row := by
      rcases editing.visible stored with same | ⟨_, same⟩
      · cases seen.symm.trans same
        exact merges
      · cases seen.symm.trans same
        exact OutboxEvent.merge_edited row (edit row)
    rw [merged]
    constructor
    · rfl
    constructor
    · constructor
      · exact editing.rows
      · exact editing.clock
      · intro eventId
        exact (editing.free eventId).draft
      · intro q other
        exact (Function.update_of_ne other ..).trans (editing.others q other)
      · intro eventId v drafted
        rcases Store.drafted_cases drafted with ⟨_, rfl, rfl⟩ | earlier
        · exact ⟨row, stored, matched, rfl⟩
        · exact editing.drafts eventId v earlier
    · apply Store.visible_of_drafted
      rw [Store.drafts_draft, AList.lookup_insert]

theorem flush (editing : Editing p Matches edit w w₁) (stored : w.events.rows.lookup row.eventId = some row)
    (matched : Matches row) (merges : row.merge row (edit row) = edit row) {outcome : Except PyError Unit}
    (executed : machine.alone p choice (Outbox.flush row (edit row)) w₁ = some (outcome, w₂)) :
    outcome = .ok () ∧ Editing p Matches edit w w₂ ∧ w₂.events.visible p row.eventId = some (edit row) := by
  unfold Outbox.flush at executed
  split_ifs at executed with unchanged
  · cases executed
    have same : edit row = row := merges.symm.trans (OutboxEvent.merge_of_unchanged unchanged)
    have seen : w₁.events.visible p row.eventId = some (edit row) := by
      rcases editing.visible stored with seen | ⟨_, seen⟩
      · rw [seen, same]
      · exact seen
    exact ⟨rfl, editing, seen⟩
  · obtain ⟨result, u, updated, rest⟩ := Machine.alone_call_cases executed
    obtain ⟨rfl, later, seen⟩ := editing.update stored matched merges choice updated
    cases rest
    exact ⟨rfl, later, seen⟩

theorem flushAll (editing : Editing p Matches edit w w₁) {rows : List OutboxEvent}
    (stored : ∀ row ∈ rows, w.events.rows.lookup row.eventId = some row ∧ Matches row)
    (merges : ∀ row ∈ rows, row.merge row (edit row) = edit row) {outcome : Except PyError Unit}
    (executed : machine.alone p choice (Outbox.flushAll edit rows) w₁ = some (outcome, w₂)) :
    outcome = .ok () ∧ Editing p Matches edit w w₂ := by
  induction rows generalizing w₁ with
  | nil =>
    cases executed
    exact ⟨rfl, editing⟩
  | cons row rows ih =>
    have first := stored row List.mem_cons_self
    rcases Machine.alone_bind_cases executed with ⟨_, u, flushed, rest⟩ | ⟨error, flushed, _⟩
    · have later := (editing.flush first.1 first.2 (merges row List.mem_cons_self) flushed).2.1
      exact ih later (fun row member => stored row (List.mem_cons_of_mem _ member))
        (fun row member => merges row (List.mem_cons_of_mem _ member)) rest
    · cases (editing.flush first.1 first.2 (merges row List.mem_cons_self) flushed).1

theorem commit (editing : Editing p Matches edit w w₁) (opening : w.Opening)
    (own : ∀ row, (edit row).eventId = row.eventId) :
    Edited Matches edit w { w₁ with events := w₁.events.commit p } := by
  have rows : ∀ eventId, (w₁.events.commit p).rows.lookup eventId = w.events.rows.lookup eventId ∨
      ∃ row, w.events.rows.lookup eventId = some row ∧ Matches row ∧
        (w₁.events.commit p).rows.lookup eventId = some (edit row) := by
    intro eventId
    rw [Store.rows_commit]
    cases drafted : (w₁.events.drafts p).lookup eventId with
    | none =>
      left
      rw [Store.visible_of_undrafted (AList.lookup_eq_none.1 drafted), editing.rows]
    | some v =>
      right
      obtain ⟨row, stored, matched, rfl⟩ := editing.drafts eventId v drafted
      exact ⟨row, stored, matched, Store.visible_of_drafted drafted⟩
  constructor
  · constructor
    · constructor
      · intro q
        by_cases same : q = p
        · subst same
          exact Store.drafts_commit
        · exact (Function.update_of_ne same ..).trans (editing.others q same)
      · intro eventId
        exact (editing.free eventId).finish
    · intro eventId row stored
      rcases rows eventId with same | ⟨before, stored', _, edited⟩
      · exact opening.keyed eventId row (same.symm.trans stored)
      · cases stored.symm.trans edited
        rw [own]
        exact opening.keyed eventId before stored'
  · exact editing.clock
  · exact rows

end Editing

/-- What `SELECT .. FOR UPDATE SKIP LOCKED` returns when no other session is open. -/
theorem select_rows {key : OutboxEvent → Timestamp} {limit : ℕ} {eventIds : List UUID} [DecidablePred Matches]
    {rows : List OutboxEvent} (opening : w.Opening)
    (selected : w.selectForUpdate p Matches key limit eventIds = some (rows, w₁)) :
    Editing p Matches edit w w₁ ∧ ∀ row ∈ rows, w.events.rows.lookup row.eventId = some row ∧
    Matches row := by
  obtain ⟨locked, _, rfl, found⟩ := World.selectForUpdate_cases selected
  constructor
  · exact (Editing.refl opening).lockAll locked
  · intro row member
    obtain ⟨eventId, _, seen, matched⟩ := found row member
    rw [Store.visible_of_drafts (opening.store.drafts p)] at seen
    rw [opening.keyed eventId row seen]
    exact ⟨seen, matched⟩

theorem edit_rows {rows : List OutboxEvent} {α : Type} {value : α} {outcome : Except PyError α}
    (opening : w.Opening) (editing : Editing p Matches edit w w₁)
    (stored : ∀ row ∈ rows, w.events.rows.lookup row.eventId = some row ∧ Matches row)
    (merges : ∀ row, row.merge row (edit row) = edit row) (own : ∀ row, (edit row).eventId = row.eventId)
    (executed : machine.alone p choice (do
      Outbox.flushAll edit rows
      Outbox.commit
      .ret value) w₁ = some (outcome, w₂)) : outcome = .ok value ∧ Edited Matches edit w w₂ := by
  rcases Machine.alone_bind_cases executed with ⟨_, u, flushed, rest⟩ | ⟨error, flushed, _⟩
  · have later := (editing.flushAll stored (fun row _ => merges row) flushed).2
    cases rest
    exact ⟨rfl, later.commit opening own⟩
  · cases (editing.flushAll stored (fun row _ => merges row) flushed).1

theorem recovers_of_alone {limit : ℕ} {eventIds : List UUID} {outcome : Except PyError ℕ} (opening : w.Opening)
    (executed : machine.alone p (.order eventIds) (recoverStaleEvents limit) w = some (outcome, w₂)) :
    (∃ count, outcome = .ok count) ∧ Edited (Stale (w.clock - seconds claimTimeoutSeconds))
    (·.recovered) w w₂ := by
  obtain ⟨t, u, read, executed⟩ := Machine.alone_call_cases executed
  cases read
  obtain ⟨rows, u, selected, executed⟩ := Machine.alone_call_cases executed
  obtain ⟨editing, stored⟩ := select_rows opening selected
  obtain ⟨rfl, edited⟩ := edit_rows opening editing stored OutboxEvent.merge_recovered (fun _ => rfl) executed
  exact ⟨⟨_, rfl⟩, edited⟩

theorem claims_of_alone {limit : ℕ} {eventIds : List UUID} {outcome : Except PyError (List OutboxEvent)}
    (opening : w.Opening)
    (executed : machine.alone p (.order eventIds) (claimPendingEvents limit) w = some (outcome, w₂)) :
    Edited (Due w.clock) (·.claimed w.clock) w w₂ ∧ ∃ rows : List OutboxEvent,
      outcome = .ok (rows.map (·.claimed w.clock)) ∧
      ∀ row ∈ rows, w.events.rows.lookup row.eventId = some row ∧ Due w.clock row := by
  obtain ⟨t, u, read, executed⟩ := Machine.alone_call_cases executed
  cases read
  obtain ⟨rows, u, selected, executed⟩ := Machine.alone_call_cases executed
  obtain ⟨editing, stored⟩ := select_rows opening selected
  obtain ⟨rfl, edited⟩ := edit_rows opening editing stored (OutboxEvent.merge_claimed w.clock)
    (fun _ => rfl) executed
  exact ⟨edited, rows, rfl, stored⟩

theorem marks_of_alone {eventId : UUID} {mark : OutboxEvent → Code OutboxEvent} {outcome : Except PyError Unit}
    (opening : w.Opening) (marks : ∀ row, machine.alone p choice (mark row) w = some (.ok (edit row), w))
    (merges : ∀ row, row.merge row (edit row) = edit row) (own : ∀ row, (edit row).eventId = row.eventId)
    (executed : machine.alone p choice (markEvent eventId mark) w = some (outcome, w₂)) :
    outcome = .ok () ∧ Edited (·.eventId = eventId) edit w w₂ ∧
      w₂.events.rows.lookup eventId = (w.events.rows.lookup eventId).map edit := by
  obtain ⟨found, u, read, executed⟩ := Machine.alone_call_cases executed
  have seen : w.events.visible p eventId = w.events.rows.lookup eventId :=
    Store.visible_of_drafts (opening.store.drafts p)
  cases read
  rw [seen] at executed
  cases stored : w.events.rows.lookup eventId with
  | none =>
    rw [stored] at executed
    cases executed
    refine ⟨rfl, ⟨opening, rfl, fun _ => .inl rfl⟩, stored⟩
  | some row =>
    rw [stored] at executed
    obtain rfl := opening.keyed eventId row stored
    have executed := (Machine.alone_bind (marks row)).symm.trans executed
    have start : Editing p (·.eventId = row.eventId) edit w w := .refl opening
    rcases Machine.alone_bind_cases executed with ⟨_, u, flushed, rest⟩ | ⟨error, flushed, _⟩
    · obtain ⟨_, later, marked⟩ := start.flush stored rfl (merges row) flushed
      cases rest
      exact ⟨rfl, later.commit opening own, marked⟩
    · cases (start.flush stored rfl (merges row) flushed).1

theorem published_of_alone (row : OutboxEvent) :
    machine.alone p choice (markPublished row) w = some (.ok (row.published w.clock), w) := rfl

theorem failed_of_alone (row : OutboxEvent) (error : String) :
    machine.alone p choice (markFailed row error) w = some (.ok (row.failed w.clock error), w) := by
  unfold markFailed OutboxEvent.failed
  split_ifs <;> rfl

theorem Edited.edits {session : Session} (edited : Edited Matches edit w w₁)
    (edits : ∀ row, Matches row → session.Edits w.clock row (edit row)) (eventId : UUID) :
    w₁.events.rows.lookup eventId = w.events.rows.lookup eventId ∨ ∃ row row',
    w.events.rows.lookup eventId = some row ∧
      session.Edits w.clock row row' ∧ w₁.events.rows.lookup eventId = some row' := by
  rcases edited.rows eventId with same | ⟨row, stored, matched, stored'⟩
  · exact .inl same
  · exact .inr ⟨row, edit row, stored, edits row matched, stored'⟩

theorem Commits.edits {eventIds : List UUID} {session : Session} {returned : List OutboxEvent} (opening : w.Opening)
    (commits : Commits p eventIds session w returned w₁) :
    w₁.Opening ∧ w₁.clock = w.clock ∧ ∀ eventId,
    w₁.events.rows.lookup eventId = w.events.rows.lookup eventId ∨
      ∃ row row', w.events.rows.lookup eventId = some row ∧ session.Edits w.clock row row' ∧
        w₁.events.rows.lookup eventId = some row' := by
  unfold Commits Session.code at commits
  cases session with
  | recoverStale limit =>
    rcases Machine.alone_bind_cases commits with ⟨_, u, recovered, rest⟩ | ⟨_, _, raised⟩
    · have edited := (recovers_of_alone opening recovered).2
      cases rest
      exact ⟨edited.opening, edited.clock, edited.edits fun row stale => .recovers limit stale⟩
    · cases raised
  | claimPending limit =>
    have edited := (claims_of_alone opening commits).1
    exact ⟨edited.opening, edited.clock, edited.edits fun row due => .claims limit due⟩
  | markPublished eventId =>
    rcases Machine.alone_bind_cases commits with ⟨_, u, marked, rest⟩ | ⟨_, _, raised⟩
    · have edited := (marks_of_alone opening published_of_alone (OutboxEvent.merge_published w.clock)
        (fun _ => rfl) marked).2.1
      cases rest
      refine ⟨edited.opening, edited.clock, edited.edits fun row same => ?_⟩
      subst same
      exact .publishes
    · cases raised
  | markFailed eventId error =>
    rcases Machine.alone_bind_cases commits with ⟨_, u, marked, rest⟩ | ⟨_, _, raised⟩
    · have edited := (marks_of_alone opening (failed_of_alone · error) (OutboxEvent.merge_failed w.clock error)
        (OutboxEvent.eventId_failed w.clock error) marked).2.1
      cases rest
      refine ⟨edited.opening, edited.clock, edited.edits fun row same => ?_⟩
      subst same
      exact .fails error
    · cases raised

theorem Commits.failed {eventIds : List UUID} {eventId : UUID} {error : String}
    {returned : List OutboxEvent} (opening : w.Opening)
    (commits : Commits p eventIds (.markFailed eventId error) w returned w₁) :
    w₁.events.rows.lookup eventId = (w.events.rows.lookup eventId).map (·.failed w.clock error) := by
  rcases Machine.alone_bind_cases commits with ⟨_, u, marked, rest⟩ | ⟨_, _, raised⟩
  · have lookup := (marks_of_alone opening (failed_of_alone · error) (OutboxEvent.merge_failed w.clock error)
      (OutboxEvent.eventId_failed w.clock error) marked).2.2
    cases rest
    exact lookup
  · cases raised

theorem Commits.returned {eventIds : List UUID} {limit : ℕ} {returned : List OutboxEvent} (opening : w.Opening)
    (commits : Commits p eventIds (.claimPending limit) w returned w₁) {event : OutboxEvent}
    (member : event ∈ returned) :
    ∃ row, w.events.rows.lookup event.eventId = some row ∧ Due w.clock row := by
  obtain ⟨_, rows, same, due⟩ := claims_of_alone opening commits
  cases same
  obtain ⟨row, listed, rfl⟩ := List.mem_map.1 member
  exact ⟨row, due row listed⟩

theorem Moment.cases (opening : w.Opening) (moment : Moment w w₁) :
    w₁.Opening ∧ w.clock ≤ w₁.clock ∧ ∀ eventId,
    w₁.events.rows.lookup eventId = w.events.rows.lookup eventId ∨
      (∃ session row row', w.events.rows.lookup eventId = some row ∧ Session.Edits w.clock row session row' ∧
        w₁.events.rows.lookup eventId = some row') ∨
      w.events.rows.lookup eventId = none ∧ ∃ aggregateId eventType payload createdAt,
        w₁.events.rows.lookup eventId =
        some (createOutboxEvent eventId aggregateId eventType payload createdAt) := by
  cases moment with
  | session p eventIds session returned commits =>
    obtain ⟨opening', clock, rows⟩ := commits.edits opening
    refine ⟨opening', clock.ge, fun eventId => ?_⟩
    rcases rows eventId with same | ⟨row, row', stored, edits, stored'⟩
    · exact .inl same
    · exact .inr (.inl ⟨session, row, row', stored, edits, stored'⟩)
  | tick tick ticked =>
    cases tick with
    | elapse microseconds =>
      cases ticked
      exact ⟨⟨opening.store, opening.keyed⟩, by simp, fun _ => .inl rfl⟩
    | post eventId aggregateId eventType payload createdAt =>
      simp only [World.tick] at ticked
      split_ifs at ticked with used
      cases ticked
      rw [not_or] at used
      constructor
      · refine ⟨⟨opening.store.drafts, opening.store.locks⟩, fun id row stored => ?_⟩
        rcases Store.lookup_insert_cases stored with ⟨rfl, rfl⟩ | ⟨_, earlier⟩
        · rfl
        · exact opening.keyed id row earlier
      refine ⟨le_refl _, fun id => ?_⟩
      by_cases same : id = eventId
      · subst same
        exact .inr (.inr ⟨AList.lookup_eq_none.2 used.1, aggregateId, eventType, payload, createdAt,
          AList.lookup_insert _⟩)
      · exact .inl (AList.lookup_insert_ne same)

theorem Moments.opening (opening : w.Opening) (moments : Moments w w₁) : w₁.Opening ∧
    w.clock ≤ w₁.clock := by
  induction moments with
  | refl => exact ⟨opening, le_refl _⟩
  | tail _ moment ih =>
    have later := moment.cases ih.1
    exact ⟨later.1, ih.2.trans later.2.1⟩

/-- What every session from `since` on keeps of a row stays true of it. -/
theorem Moments.keeps {P : OutboxEvent → Prop} {since : Timestamp}
    (edits : ∀ now session row row', since ≤ now → P row → Session.Edits now row session row' → P row')
    (opening : w.Opening)
    (started : since ≤ w.clock) {eventId : UUID} (stored : w.events.rows.lookup eventId = some row) (holds : P row)
    (moments : Moments w w₁) : ∃ row', w₁.events.rows.lookup eventId = some row' ∧ P row' := by
  induction moments with
  | refl => exact ⟨row, stored, holds⟩
  | tail earlier moment ih =>
    obtain ⟨row₁, stored₁, holds₁⟩ := ih
    obtain ⟨opening₁, later⟩ := Moments.opening opening earlier
    obtain ⟨_, _, rows⟩ := moment.cases opening₁
    rcases rows eventId with same | ⟨session, before, after, stored', edited, stored''⟩ | ⟨absent, _⟩
    · exact ⟨row₁, same.trans stored₁, holds₁⟩
    · cases stored₁.symm.trans stored'
      exact ⟨after, stored'', edits _ session row₁ after (started.trans later) holds₁ edited⟩
    · cases absent.symm.trans stored₁

theorem Moments.all {P : OutboxEvent → Prop}
    (created : ∀ eventId aggregateId eventType payload createdAt,
      P (createOutboxEvent eventId aggregateId eventType payload createdAt))
    (edits : ∀ now session row row', P row → Session.Edits now row session row' → P row') (opening : w.Opening)
    (start : ∀ eventId row, w.events.rows.lookup eventId = some row → P row) (moments : Moments w w₁) :
    ∀ eventId row, w₁.events.rows.lookup eventId = some row → P row := by
  induction moments with
  | refl => exact start
  | tail earlier moment ih =>
    intro eventId row stored
    obtain ⟨_, _, rows⟩ := moment.cases (Moments.opening opening earlier).1
    rcases rows eventId with same | ⟨session, before, after, stored', edited, stored''⟩ | ⟨_, _, _, _, _, new⟩
    · exact ih eventId row (same.symm.trans stored)
    · cases stored.symm.trans stored''
      exact edits _ session before row (ih eventId before stored') edited
    · cases stored.symm.trans new
      exact created _ _ _ _ _

end

end LedgerFlow.Outbox
