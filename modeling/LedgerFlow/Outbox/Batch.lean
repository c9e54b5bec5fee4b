import LedgerFlow.Common.Oldest
import LedgerFlow.Concurrency.Serial
import LedgerFlow.Outbox.Liveness
import LedgerFlow.Outbox.Whole

/-! A batch that runs alone, as one step of the outbox: what it recovers, claims and publishes, and in which order. -/

namespace LedgerFlow.Outbox
open Concurrency Table

def World.table (w : World) : UUID → Option OutboxEvent := fun eventId => w.events.rows.lookup eventId

inductive Outcome where
  | sent
  | refused (error : String) (delivered : Bool)
  deriving DecidableEq

namespace Outcome

def delivers (event : OutboxEvent) : Outcome → List (String × Json)
  | .sent => [(kafkaLedgerTopic, message event)]
  | .refused _ true => [(kafkaLedgerTopic, message event)]
  | .refused _ false => []

def settles (now : Timestamp) (event : OutboxEvent) : Outcome → OutboxEvent
  | .sent => event.published now
  | .refused error _ => event.failed now error

end Outcome

/-- What a batch does: it recovers the events that have been claimed for the longest time, then it publishes
the ones that have been due for the longest time, one after the other. -/
structure Batch (size : ℕ) (w : World) (stale due : List OutboxEvent) (outcomes : List Outcome)
    (w' : World) : Prop where
  recovers : Oldest OutboxEvent.eventId w.table (Stale (w.clock - seconds claimTimeoutSeconds))
    (fun event => event.claimedAt.getD 0) size stale
  claims : Oldest OutboxEvent.eventId (write OutboxEvent.eventId (stale.map (·.recovered)) w.table)
    (Due w.clock) (·.createdAt) size due
  paired : outcomes.length = due.length
  table : w'.table = write OutboxEvent.eventId (List.zipWith (Outcome.settles w.clock) due outcomes)
    (write OutboxEvent.eventId (stale.map (·.recovered)) w.table)
  log : w'.log = w.log ++ (List.zipWith Outcome.delivers due outcomes).flatten
  clock : w'.clock = w.clock
  opening : w'.Opening

structure Publishes (events : List OutboxEvent) (outcomes : List Outcome) (w w' : World) : Prop where
  paired : outcomes.length = events.length
  opening : w'.Opening
  clock : w'.clock = w.clock
  log : w'.log = w.log ++ (List.zipWith Outcome.delivers events outcomes).flatten
  table : w'.table = write OutboxEvent.eventId (List.zipWith (Outcome.settles w.clock) events outcomes) w.table

variable {p limit : ℕ} {Matches : OutboxEvent → Prop} {edit : OutboxEvent → OutboxEvent} {w w₁ w₂ u : World}
  {rows : List OutboxEvent} {row : OutboxEvent}

/-! The statements of a session whose selection no other session disturbs. -/

theorem filterMap_table {ids : List UUID} {table : UUID → Option OutboxEvent}
    (found : ∀ id ∈ ids, ∃ row, table id = some row ∧ row.eventId = id) :
    (ids.filterMap table).map OutboxEvent.eventId = ids := by
  induction ids with
  | nil => rfl
  | cons id ids ih =>
    obtain ⟨row, seen, own⟩ := found id List.mem_cons_self
    rw [List.filterMap_cons_some seen, List.map_cons, own, ih fun id member =>
      found id (List.mem_cons_of_mem _ member)]

/-- `SELECT .. ORDER BY .. LIMIT .. FOR UPDATE SKIP LOCKED` where no other session is open. -/
theorem select_oldest {key : OutboxEvent → Timestamp} {eventIds : List UUID} [DecidablePred Matches]
    (opening : w.Opening) (selected : w.selectForUpdate p Matches key limit eventIds = some (rows, w₁)) :
    Oldest OutboxEvent.eventId w.table Matches key limit rows ∧ Editing p (· ∈ rows) edit w w₁ ∧
    w₁.log = w.log := by
  have visible : (fun eventId => w.events.visible p eventId) = w.table := by
    ext1 eventId
    exact Store.visible_of_drafts (opening.store.drafts p)
  simp only [World.selectForUpdate] at selected
  split_ifs at selected with answers
  obtain ⟨listed, sorted⟩ := answers
  simp only [Option.some.injEq, Prod.mk.injEq] at selected
  obtain ⟨chosen, reached⟩ := selected
  rw [visible] at sorted chosen
  subst reached
  have found : ∀ id ∈ eventIds, ∃ row, w.table id = some row ∧ row.eventId = id ∧ Matches row := by
    intro id member
    obtain ⟨_, row, seen, matched⟩ := of_decide_eq_true (List.mem_filter.1 (listed.mem_iff.1 member)).2
    have stored : w.table id = some row := visible ▸ seen
    exact ⟨row, stored, opening.keyed id row stored, matched⟩
  have ids : rows.map OutboxEvent.eventId = eventIds.take limit := by
    rw [← chosen]
    apply filterMap_table
    intro id member
    obtain ⟨row, stored, own, _⟩ := found id (List.mem_of_mem_take member)
    exact ⟨row, stored, own⟩
  have distinct : eventIds.Nodup := listed.nodup_iff.2 (w.events.rows.nodupKeys.filter _)
  refine ⟨⟨?_, ?_, ?_, ?_, ?_⟩, (Editing.refl opening).lockAll _, rfl⟩
  · rw [ids]
    exact distinct.sublist (List.take_sublist ..)
  · intro row member
    rw [← chosen] at member
    obtain ⟨id, listed, stored⟩ := List.mem_filterMap.1 member
    obtain ⟨row', stored', own, matched⟩ := found id (List.mem_of_mem_take listed)
    cases stored.symm.trans stored'
    rw [own]
    exact ⟨stored, matched⟩
  · rw [← chosen]
    exact sorted.sublist ((List.take_sublist ..).filterMap _)
  · have few := congrArg List.length ids
    rw [List.length_map, List.length_take] at few
    omega
  · intro id row stored matched missing
    have own := opening.keyed id row stored
    have among : id ∈ eventIds := by
      apply listed.mem_iff.2
      apply List.mem_filter.2
      have seen : w.events.visible p id = some row := (congrFun visible id).trans stored
      refine ⟨AList.mem_keys.1 (AList.lookup_isSome.1 (Option.isSome_of_eq_some stored)),
        decide_eq_true ⟨?_, row, seen, matched⟩⟩
      exact .of_unlocked (opening.store.locks id)
    have late : id ∈ eventIds.drop limit := by
      rw [← List.take_append_drop limit eventIds] at among
      rcases List.mem_append.1 among with early | late
      · rw [← chosen] at missing
        exact absurd (List.mem_filterMap.2 ⟨id, early, stored⟩) missing
      · exact late
    constructor
    · have beyond := List.length_pos_of_mem late
      have few := congrArg List.length ids
      rw [List.length_map, List.length_take] at few
      rw [List.length_drop] at beyond
      omega
    · intro before member
      rw [← List.take_append_drop limit eventIds, List.filterMap_append, chosen, List.pairwise_append] at sorted
      exact sorted.2.2 before member row (List.mem_filterMap.2 ⟨id, late, stored⟩)

theorem checked_alone {α : Type} {result : Except PyError α} {outcome : Except PyError α}
    (executes : machine.Executes p (checked result) w outcome w₁) : outcome = result ∧ w₁ = w := by
  cases result with
  | ok value => exact Machine.Executes.ret_cases executes
  | error error => exact Machine.Executes.raise_cases executes

theorem flush_alone {loaded edited : OutboxEvent} {outcome : Except PyError Unit}
    (executes : machine.Executes p (flush loaded edited) w outcome w₁) :
    loaded.Unchanged edited ∧ outcome = .ok () ∧ w₁ = w ∨
      ¬loaded.Unchanged edited ∧ ∃ choice, exec p (.update loaded edited) choice w = some (outcome, w₁) := by
  unfold flush at executes
  split_ifs at executes with unchanged
  · exact .inl ⟨unchanged, Machine.Executes.ret_cases executes⟩
  · obtain ⟨choice, result, u, executed, rest⟩ := Machine.Executes.call_cases executes
    obtain ⟨rfl, rfl⟩ := checked_alone rest
    exact .inr ⟨unchanged, choice, executed⟩

theorem visible_draft_of_ne {s : Store UUID OutboxEvent} {k l : UUID} (other : l ≠ k) :
    (s.draft p k row).visible p l = s.visible p l := by
  unfold Store.visible
  rw [Store.drafts_draft, Store.rows_draft]
  by_cases drafted : l ∈ s.drafts p
  · rw [AList.lookup_union_left drafted, AList.lookup_union_left (AList.mem_insert _ |>.2 (.inr drafted)),
      AList.lookup_insert_ne other]
  · have undrafted : l ∉ (s.drafts p).insert k row := by
      rw [AList.mem_insert, not_or]
      exact ⟨other, drafted⟩
    rw [AList.lookup_union_right drafted, AList.lookup_union_right undrafted]

namespace Editing

def Flushed (p : ℕ) (edit : OutboxEvent → OutboxEvent) (w₁ : World) (row : OutboxEvent) : Prop :=
  w₁.events.visible p row.eventId = some (edit row)

theorem flushes (editing : Editing p Matches edit w w₁) (stored : w.table row.eventId = some row)
    (matched : Matches row) (merges : row.merge row (edit row) = edit row) {outcome : Except PyError Unit}
    (executes : machine.Executes p (Outbox.flush row (edit row)) w₁ outcome w₂) :
    outcome = .ok () ∧ Editing p Matches edit w w₂ ∧ w₂.log = w₁.log ∧ Flushed p edit w₂ row ∧
      ∀ other, w.table other.eventId = some other → Flushed p edit w₁ other → Flushed p edit w₂ other := by
  rcases flush_alone executes with ⟨unchanged, rfl, rfl⟩ | ⟨_, choice, executed⟩
  · have same : edit row = row := merges.symm.trans (OutboxEvent.merge_of_unchanged unchanged)
    have seen : Flushed p edit w₂ row := by
      rcases editing.visible stored with seen | ⟨_, seen⟩
      · exact seen.trans (congrArg some same.symm)
      · exact seen
    exact ⟨rfl, editing, rfl, seen, fun _ _ flushed => flushed⟩
  · obtain ⟨returned, later, seen⟩ := editing.update stored matched merges choice executed
    refine ⟨returned, later, ?_⟩
    obtain ⟨_, ⟨_, _, rfl⟩ | ⟨before, _, _, same⟩⟩ := exec_update choice executed
    · exact ⟨rfl, seen, fun _ _ flushed => flushed⟩
    · refine ⟨by rw [same], seen, fun other stored' flushed => ?_⟩
      by_cases own : other.eventId = row.eventId
      · rw [own, stored] at stored'
        cases stored'
        exact seen
      · unfold Flushed
        rw [same]
        exact (visible_draft_of_ne own).trans flushed

theorem flushesAll (editing : Editing p Matches edit w w₁)
    (stored : ∀ row ∈ rows, w.table row.eventId = some row ∧ Matches row)
    (merges : ∀ row, row.merge row (edit row) = edit row) {outcome : Except PyError Unit}
    (executes : machine.Executes p (Outbox.flushAll edit rows) w₁ outcome w₂) :
    outcome = .ok () ∧ Editing p Matches edit w w₂ ∧ w₂.log = w₁.log ∧
    (∀ row ∈ rows, Flushed p edit w₂ row) ∧
      ∀ other, w.table other.eventId = some other → Flushed p edit w₁ other → Flushed p edit w₂ other := by
  induction rows generalizing w₁ with
  | nil =>
    obtain ⟨rfl, rfl⟩ := Machine.Executes.ret_cases executes
    exact ⟨rfl, editing, rfl, fun _ absurd => (List.not_mem_nil absurd).elim, fun _ _ flushed => flushed⟩
  | cons row rows ih =>
    have first := stored row List.mem_cons_self
    rcases Machine.Executes.bind_cases executes with ⟨_, u, flushed, rest⟩ | ⟨error, flushed, _⟩
    · obtain ⟨_, later, log, own, kept⟩ := editing.flushes first.1 first.2 (merges row) flushed
      obtain ⟨returned, last, log', all, kept'⟩ :=
        ih later (fun row member => stored row (List.mem_cons_of_mem _ member)) rest
      refine ⟨returned, last, log'.trans log, ?_, fun other stored flushed =>
        kept' other stored (kept other stored flushed)⟩
      intro other member
      rcases List.mem_cons.1 member with rfl | member
      · exact kept' _ first.1 own
      · exact all other member
    · cases (editing.flushes first.1 first.2 (merges row) flushed).1

theorem table_commit (editing : Editing p (· ∈ rows) edit w w₁)
    (flushed : ∀ row ∈ rows, Flushed p edit w₁ row)
    (own : ∀ row, (edit row).eventId = row.eventId) (distinct : (rows.map OutboxEvent.eventId).Nodup)
    (opening : w.Opening) :
    World.table { w₁ with events := w₁.events.commit p } = write OutboxEvent.eventId (rows.map edit) w.table := by
  have named : (rows.map edit).map OutboxEvent.eventId = rows.map OutboxEvent.eventId := by
    rw [List.map_map]
    exact List.map_congr_left fun row _ => own row
  ext1 eventId
  change w₁.events.visible p eventId = _
  by_cases member : eventId ∈ rows.map OutboxEvent.eventId
  · obtain ⟨row, listed, rfl⟩ := List.mem_map.1 member
    rw [flushed row listed, ← own row]
    exact (write_of_mem (named ▸ distinct) (List.mem_map_of_mem listed)).symm
  · rw [write_of_absent (named ▸ member)]
    apply (Store.visible_of_undrafted _).trans
    · exact congrArg (fun table => table.lookup eventId) editing.rows
    · intro drafted
      obtain ⟨v, drafted⟩ := Option.isSome_iff_exists.1 (AList.lookup_isSome.2 drafted)
      obtain ⟨row, stored, listed, _⟩ := editing.drafts eventId v drafted
      exact member (List.mem_map.2 ⟨row, listed, opening.keyed eventId row stored⟩)

end Editing

theorem edit_alone {α : Type} {value : α} {outcome : Except PyError α} (opening : w.Opening)
    (editing : Editing p (· ∈ rows) edit w w₁) (stored : ∀ row ∈ rows, w.table row.eventId = some row)
    (distinct : (rows.map OutboxEvent.eventId).Nodup) (merges : ∀ row, row.merge row (edit row) = edit row)
    (own : ∀ row, (edit row).eventId = row.eventId)
    (executes : machine.Executes p (do
      Outbox.flushAll edit rows
      Outbox.commit
      .ret value) w₁ outcome w₂) :
    outcome = .ok value ∧ w₂.Opening ∧ w₂.clock = w.clock ∧ w₂.log = w₁.log ∧
      w₂.table = write OutboxEvent.eventId (rows.map edit) w.table := by
  rcases Machine.Executes.bind_cases executes with ⟨_, u, flushed, rest⟩ | ⟨error, flushed, _⟩
  · obtain ⟨_, later, log, all, _⟩ := editing.flushesAll
      (fun row member => ⟨stored row member, member⟩) merges flushed
    obtain ⟨_, _, v, committed, rest⟩ := Machine.Executes.call_cases rest
    obtain ⟨rfl, rfl⟩ := Machine.Executes.ret_cases rest
    cases committed
    have edited := later.commit opening own
    exact ⟨rfl, edited.opening, edited.clock, log, later.table_commit all own distinct opening⟩
  · cases (editing.flushesAll (fun row member => ⟨stored row member, member⟩) merges flushed).1

theorem recover_alone {outcome : Except PyError ℕ} (opening : w.Opening)
    (executes : machine.Executes p (recoverStaleEvents limit) w outcome w₂) : ∃ stale : List OutboxEvent,
    outcome = .ok stale.length ∧
    Oldest OutboxEvent.eventId w.table (Stale (w.clock - seconds claimTimeoutSeconds))
    (fun event => event.claimedAt.getD 0)
      limit stale ∧
    w₂.Opening ∧ w₂.clock = w.clock ∧ w₂.log = w.log ∧
    w₂.table = write OutboxEvent.eventId (stale.map (·.recovered)) w.table := by
  obtain ⟨_, now, u, read, executes⟩ := Machine.Executes.call_cases executes
  cases read
  obtain ⟨choice, rows, u, selected, executes⟩ := Machine.Executes.call_cases executes
  cases choice with
  | order eventIds =>
    obtain ⟨oldest, editing, log⟩ := select_oldest opening selected
    obtain ⟨returned, opening', clock, log', table⟩ :=
      edit_alone opening editing (fun row member => (oldest.stored row member).1)
      oldest.distinct OutboxEvent.merge_recovered (fun _ => rfl) executes
    exact ⟨rows, returned, oldest, opening', clock, log'.trans log, table⟩
  | _ => cases selected

theorem claim_alone {outcome : Except PyError (List OutboxEvent)} (opening : w.Opening)
    (executes : machine.Executes p (claimPendingEvents limit) w outcome w₂) : ∃ due : List OutboxEvent,
    outcome = .ok (due.map (·.claimed w.clock)) ∧
    Oldest OutboxEvent.eventId w.table (Due w.clock) (·.createdAt) limit due ∧
    w₂.Opening ∧ w₂.clock = w.clock ∧ w₂.log = w.log ∧
    w₂.table = write OutboxEvent.eventId (due.map (·.claimed w.clock)) w.table := by
  obtain ⟨_, now, u, read, executes⟩ := Machine.Executes.call_cases executes
  cases read
  obtain ⟨choice, rows, u, selected, executes⟩ := Machine.Executes.call_cases executes
  cases choice with
  | order eventIds =>
    obtain ⟨oldest, editing, log⟩ := select_oldest opening selected
    obtain ⟨returned, opening', clock, log', table⟩ :=
      edit_alone opening editing (fun row member => (oldest.stored row member).1)
      oldest.distinct (OutboxEvent.merge_claimed w.clock) (fun _ => rfl) executes
    exact ⟨rows, returned, oldest, opening', clock, log'.trans log, table⟩
  | _ => cases selected

theorem mark_alone {mark : OutboxEvent → Code OutboxEvent} {outcome : Except PyError Unit} (opening : w.Opening)
    (stored : w.table row.eventId = some row)
    (marks : ∀ {marked : Except PyError OutboxEvent} {u}, machine.Executes p (mark row) w marked u →
      marked = .ok (edit row) ∧ u = w)
    (merges : ∀ row, row.merge row (edit row) = edit row) (own : ∀ row, (edit row).eventId = row.eventId)
    (executes : machine.Executes p (markEvent row.eventId mark) w outcome w₂) :
    outcome = .ok () ∧ w₂.Opening ∧ w₂.clock = w.clock ∧ w₂.log = w.log ∧
      w₂.table = write OutboxEvent.eventId [edit row] w.table := by
  obtain ⟨_, found, u, read, executes⟩ := Machine.Executes.call_cases executes
  have seen : w.events.visible p row.eventId = some row :=
    (Store.visible_of_drafts (opening.store.drafts p)).trans stored
  cases read
  rw [seen] at executes
  have executes : machine.Executes p (mark row >>= fun edited => flush row edited >>= fun _ => commit) w
      outcome w₂ := executes
  rcases Machine.Executes.bind_cases executes with ⟨edited, u, marked, executes⟩ | ⟨error, marked, _⟩
  · obtain ⟨same, rfl⟩ := marks marked
    cases same
    have editing : Editing p (· ∈ [row]) edit u u := .refl opening
    have listed := List.mem_singleton_self row
    rcases Machine.Executes.bind_cases executes with ⟨_, v, flushed, rest⟩ | ⟨error, flushed, _⟩
    · obtain ⟨_, later, log, seen, _⟩ := editing.flushes stored listed (merges row) flushed
      obtain ⟨_, _, v', committed, rest⟩ := Machine.Executes.call_cases rest
      obtain ⟨rfl, rfl⟩ := Machine.Executes.ret_cases rest
      cases committed
      have edited := later.commit opening own
      have all : ∀ other ∈ [row], Editing.Flushed p edit v other := by
        intro other member
        rw [List.mem_singleton.1 member]
        exact seen
      exact ⟨rfl, edited.opening, edited.clock, log, later.table_commit all own (List.nodup_singleton _) opening⟩
    · cases (editing.flushes stored listed (merges row) flushed).1
  · cases (marks marked).1

theorem published_alone {marked : Except PyError OutboxEvent}
    (executes : machine.Executes p (markPublished row) w marked u) :
    marked = .ok (row.published w.clock) ∧ u = w := by
  obtain ⟨_, now, v, read, rest⟩ := Machine.Executes.call_cases executes
  cases read
  exact Machine.Executes.ret_cases rest

theorem failed_alone {error : String} {marked : Except PyError OutboxEvent}
    (executes : machine.Executes p (markFailed row error) w marked u) :
    marked = .ok (row.failed w.clock error) ∧ u = w := by
  unfold markFailed at executes
  unfold OutboxEvent.failed
  split_ifs at executes ⊢ with exhausted
  · exact Machine.Executes.ret_cases executes
  · obtain ⟨_, now, v, read, rest⟩ := Machine.Executes.call_cases executes
    cases read
    exact Machine.Executes.ret_cases rest

theorem turn_alone {mark : OutboxEvent → Code OutboxEvent} {count : ℕ} {outcome : Except PyError ℕ}
    (opening : w.Opening) (stored : w.table row.eventId = some row)
    (marks : ∀ {marked : Except PyError OutboxEvent} {u}, machine.Executes p (mark row) w marked u →
      marked = .ok (edit row) ∧ u = w)
    (merges : ∀ row, row.merge row (edit row) = edit row) (own : ∀ row, (edit row).eventId = row.eventId)
    (executes : machine.Executes p (markEvent row.eventId mark >>= fun _ => .ret count) w outcome w₂) :
    outcome = .ok count ∧ w₂.Opening ∧ w₂.clock = w.clock ∧ w₂.log = w.log ∧
      w₂.table = write OutboxEvent.eventId [edit row] w.table := by
  rcases Machine.Executes.bind_cases executes with ⟨_, v, marked, rest⟩ | ⟨error, marked, _⟩
  · obtain ⟨returned, rfl⟩ := Machine.Executes.ret_cases rest
    exact ⟨returned, (mark_alone opening stored marks merges own marked).2⟩
  · cases (mark_alone opening stored marks merges own marked).1

theorem publish_alone {event : OutboxEvent} {outcome : Except PyError ℕ} (opening : w.Opening)
    (stored : w.table event.eventId = some event) (executes : machine.Executes p (publish event) w outcome w₂) :
    ∃ came : Outcome, outcome = .ok (List.count .sent [came]) ∧ w₂.Opening ∧ w₂.clock = w.clock ∧
      w₂.log = w.log ++ came.delivers event ∧
      w₂.table = write OutboxEvent.eventId [came.settles w.clock event] w.table := by
  obtain ⟨_, result, u, executed, rest⟩ := Machine.Executes.call_cases executes
  rcases send_cases executed with ⟨rfl, rfl⟩ | ⟨error, delivered, rfl, reached⟩
  · have opening' : (w.message kafkaLedgerTopic (message event)).Opening := ⟨opening.store, opening.keyed⟩
    obtain ⟨returned, last, clock, log, table⟩ := turn_alone opening' stored published_alone
      (OutboxEvent.merge_published w.clock) (fun _ => rfl) rest
    exact ⟨.sent, returned, last, clock, log, table⟩
  · have same : u.events = w.events ∧ u.clock = w.clock ∧
      u.log = w.log ++ (Outcome.refused error delivered).delivers event := by
      rw [reached]
      cases delivered
      · exact ⟨rfl, rfl, (List.append_nil _).symm⟩
      · exact ⟨rfl, rfl, rfl⟩
    obtain ⟨events, now, log⟩ := same
    have opening' : u.Opening := ⟨events ▸ opening.store, events ▸ opening.keyed⟩
    have unchanged : u.table = w.table := by
      unfold World.table
      rw [events]
    have stored' : u.table event.eventId = some event := unchanged ▸ stored
    obtain ⟨returned, last, clock, log', table⟩ := turn_alone opening' stored' failed_alone
      (OutboxEvent.merge_failed u.clock error) (OutboxEvent.eventId_failed u.clock error) rest
    rw [unchanged, now] at table
    exact ⟨.refused error delivered, returned, last, clock.trans now, log'.trans log, table⟩

theorem eventId_settles (now : Timestamp) (event : OutboxEvent) (came : Outcome) :
    (came.settles now event).eventId = event.eventId := by
  cases came with
  | sent => rfl
  | refused error delivered => exact OutboxEvent.eventId_failed now error event

theorem eventIds_settles (now : Timestamp) {events : List OutboxEvent} : ∀ {outcomes : List Outcome},
    outcomes.length = events.length →
      (List.zipWith (Outcome.settles now) events outcomes).map OutboxEvent.eventId =
      events.map OutboxEvent.eventId := by
  induction events with
  | nil =>
    intro outcomes _
    rfl
  | cons event events ih =>
    intro outcomes paired
    cases outcomes with
    | nil => cases paired
    | cons came outcomes =>
      rw [List.zipWith_cons_cons, List.map_cons, List.map_cons, eventId_settles, ih (Nat.succ.inj paired)]

namespace Publishes
variable {event : OutboxEvent} {events : List OutboxEvent} {came : Outcome} {outcomes : List Outcome}

theorem nil (opening : w.Opening) : Publishes [] [] w w := ⟨rfl, opening, rfl, (List.append_nil _).symm, rfl⟩

theorem rest (distinct : ((event :: events).map OutboxEvent.eventId).Nodup)
    (stored : ∀ other ∈ event :: events, w.table other.eventId = some other)
    (table : u.table = write OutboxEvent.eventId [came.settles w.clock event] w.table) :
    ∀ other ∈ events, u.table other.eventId = some other := by
  rw [List.map_cons, List.nodup_cons] at distinct
  intro other member
  rw [table, write_of_absent]
  · exact stored other (List.mem_cons_of_mem _ member)
  · rw [List.map_singleton, eventId_settles, List.mem_singleton]
    intro same
    exact distinct.1 (same ▸ List.mem_map_of_mem member)

theorem cons (distinct : event.eventId ∉ events.map OutboxEvent.eventId) (clock : u.clock = w.clock)
    (log : u.log = w.log ++ came.delivers event)
    (table : u.table = write OutboxEvent.eventId [came.settles w.clock event] w.table)
    (publishes : Publishes events outcomes u w₂) :
    Publishes (event :: events) (came :: outcomes) w w₂ where
  paired := congrArg Nat.succ publishes.paired
  opening := publishes.opening
  clock := publishes.clock.trans clock
  log := by rw [publishes.log, log, List.append_assoc, List.zipWith_cons_cons, List.flatten_cons]
  table := by
    rw [publishes.table, table, clock, List.zipWith_cons_cons, write_singleton]
    rw [eventIds_settles _ publishes.paired, eventId_settles]
    exact distinct

end Publishes

theorem publishAll_alone {events : List OutboxEvent} {outcome : Except PyError ℕ} (opening : w.Opening)
    (distinct : (events.map OutboxEvent.eventId).Nodup)
    (stored : ∀ event ∈ events, w.table event.eventId = some event)
    (executes : machine.Executes p (publishAll events) w outcome w₂) :
    ∃ outcomes, Publishes events outcomes w w₂ ∧ outcome = .ok (List.count .sent outcomes) := by
  induction events generalizing w w₂ outcome with
  | nil =>
    obtain ⟨rfl, rfl⟩ := Machine.Executes.ret_cases executes
    exact ⟨[], .nil opening, rfl⟩
  | cons event events ih =>
    have first := stored event List.mem_cons_self
    rcases Machine.Executes.bind_cases executes with ⟨sent, u, published, executes⟩ | ⟨error, published, _⟩
    · obtain ⟨came, returned, opening', clock, log, table⟩ := publish_alone opening first published
      have stored' := Publishes.rest distinct stored table
      rw [List.map_cons, List.nodup_cons] at distinct
      rcases Machine.Executes.bind_cases executes with ⟨processed, v, rest, last⟩ | ⟨error, rest, _⟩
      · obtain ⟨outcomes, publishes, returned'⟩ := ih opening' distinct.2 stored' rest
        obtain ⟨total, rfl⟩ := Machine.Executes.ret_cases last
        cases returned
        cases returned'
        exact ⟨came :: outcomes, .cons distinct.1 clock log table publishes,
          total.trans (congrArg Except.ok List.count_append.symm)⟩
      · obtain ⟨_, _, returned'⟩ := ih opening' distinct.2 stored' rest
        cases returned'
    · obtain ⟨_, returned, _⟩ := publish_alone opening first published
      cases returned

theorem Batch.of_parts {size : ℕ} {stale due : List OutboxEvent} {outcomes : List Outcome} {v : World}
    (recovers : Oldest OutboxEvent.eventId w.table (Stale (w.clock - seconds claimTimeoutSeconds))
      (fun event => event.claimedAt.getD 0) size stale)
    (clock : u.clock = w.clock) (log : u.log = w.log)
    (table : u.table = write OutboxEvent.eventId (stale.map (·.recovered)) w.table)
    (claims : Oldest OutboxEvent.eventId u.table (Due u.clock) (·.createdAt) size due) (clock' : v.clock = u.clock)
    (log' : v.log = u.log) (table' : v.table = write OutboxEvent.eventId (due.map (·.claimed u.clock)) u.table)
    (publishes : Publishes (due.map (·.claimed u.clock)) outcomes v w₂) :
    Batch size w stale due outcomes w₂ := by
  rw [clock, table] at claims
  rw [clock] at clock' publishes table'
  have paired := publishes.paired
  rw [List.length_map] at paired
  have ids : (due.map (·.claimed w.clock)).map OutboxEvent.eventId = due.map OutboxEvent.eventId := by
    rw [List.map_map]
    exact List.map_congr_left fun _ _ => rfl
  -- what is made of a claimed event does not depend on the claim
  have settled : List.zipWith (Outcome.settles v.clock) (due.map (·.claimed w.clock)) outcomes =
      List.zipWith (Outcome.settles w.clock) due outcomes := by
    rw [List.zipWith_map_left, clock']
    apply congrArg (fun f => List.zipWith f due outcomes)
    funext event came
    cases came <;> rfl
  have delivered : List.zipWith Outcome.delivers (due.map (·.claimed w.clock)) outcomes =
      List.zipWith Outcome.delivers due outcomes := by
    rw [List.zipWith_map_left]
    apply congrArg (fun f => List.zipWith f due outcomes)
    funext event came
    cases came with
    | sent => rfl
    | refused error delivered => cases delivered <;> rfl
  refine ⟨recovers, claims, paired, ?_, ?_, publishes.clock.trans clock', publishes.opening⟩
  · rw [publishes.table, settled, table', write_over ((eventIds_settles _ paired).trans ids.symm), table]
  · rw [publishes.log, delivered, log', log]

theorem stored_of_claims {due : List OutboxEvent} {v : World} {key : OutboxEvent → Timestamp} {now : Timestamp}
    (claims : Oldest OutboxEvent.eventId u.table Matches key limit due)
    (table : v.table = write OutboxEvent.eventId (due.map (·.claimed now)) u.table) :
    ((due.map (·.claimed now)).map OutboxEvent.eventId).Nodup ∧
      ∀ event ∈ due.map (·.claimed now), v.table event.eventId = some event := by
  have ids : (due.map (·.claimed now)).map OutboxEvent.eventId = due.map OutboxEvent.eventId := by
    rw [List.map_map]
    exact List.map_congr_left fun _ _ => rfl
  refine ⟨ids ▸ claims.distinct, fun event member => ?_⟩
  rw [table]
  exact write_of_mem (ids ▸ claims.distinct) member

theorem batch_of_executes {size : ℕ} {outcome : Except PyError ℕ} (opening : w.Opening)
    (executes : machine.Executes p (processBatch size) w outcome w₂) : ∃ stale due outcomes,
    Batch size w stale due outcomes w₂ ∧ outcome = .ok (List.count .sent outcomes) := by
  rcases Machine.Executes.bind_cases executes with ⟨_, u, recovered, executes⟩ | ⟨error, recovered, _⟩
  · obtain ⟨stale, _, recovers, opening', clock, log, table⟩ := recover_alone opening recovered
    rcases Machine.Executes.bind_cases executes with ⟨events, v, claimed, executes⟩ | ⟨error, claimed, _⟩
    · obtain ⟨due, returned, claims, opening'', clock', log', table'⟩ := claim_alone opening' claimed
      cases returned
      obtain ⟨distinct, stored⟩ := stored_of_claims claims table'
      obtain ⟨outcomes, publishes, returned⟩ := publishAll_alone opening'' distinct stored executes
      exact ⟨stale, due, outcomes, .of_parts recovers clock log table claims clock' log' table' publishes,
        returned⟩
    · obtain ⟨_, returned, _⟩ := claim_alone opening' claimed
      cases returned
  · obtain ⟨_, returned, _⟩ := recover_alone opening recovered
    cases returned

/-! Where no other session is open, a program comes to its end. -/

theorem executes_some {α : Type} (prog : Code α) (opening : w.Opening) : ∃ outcome w',
    machine.Executes p prog w outcome w' := by
  have start : ∀ q, q ≠ p → Lockless q w := by
    intro q _ eventId locked
    cases (opening.store.locks eventId).symm.trans locked
  have enabled : ∀ (stmt : Stmt) (u : World), (∀ q, q ≠ p → Lockless q u) →
      ∃ choice result v, exec p stmt choice u = some (result, v) ∧ ∀ q, q ≠ p → Lockless q v := by
    intro stmt u lockless
    rcases enabled_or_waits .proceed p stmt u with ⟨choice, result, v, executed, _⟩ |
      ⟨loaded, edited, q, rfl, other, locked⟩
    · exact ⟨choice, result, v, executed, fun q other eventId locked =>
        lockless q other eventId ((locks_of_exec executed other eventId).1 locked)⟩
    · exact absurd locked (lockless q other loaded.eventId)
  obtain ⟨outcome, w', executes, _⟩ := Machine.Executes.of_enabled (M := machine) enabled prog start
  exact ⟨outcome, w', executes⟩

theorem publish_sent {event : OutboxEvent} (opening : w.Opening) (stored : w.table event.eventId = some event) :
    ∃ u, machine.Executes p (publish event) w (.ok 1) u ∧ u.Opening ∧ u.clock = w.clock ∧
      u.log = w.log ++ Outcome.delivers event .sent ∧
      u.table = write OutboxEvent.eventId [Outcome.settles w.clock event .sent] w.table := by
  have opening' : (w.message kafkaLedgerTopic (message event)).Opening := ⟨opening.store, opening.keyed⟩
  obtain ⟨outcome, u, executes⟩ := executes_some (p := p)
    (markEvent event.eventId markPublished >>= fun _ => (.ret 1 : Code ℕ)) opening'
  obtain ⟨rfl, last, clock, log, table⟩ :=
    turn_alone opening' stored published_alone (OutboxEvent.merge_published w.clock)
    (fun _ => rfl) executes
  have sent : machine.exec p (.send kafkaLedgerTopic (message event)) .proceed w =
      some (.ok (), w.message kafkaLedgerTopic (message event)) := rfl
  exact ⟨u, .call sent executes, last, clock, log, table⟩

theorem publishAll_sent {events : List OutboxEvent} (opening : w.Opening)
    (distinct : (events.map OutboxEvent.eventId).Nodup)
    (stored : ∀ event ∈ events, w.table event.eventId = some event) :
    ∃ u, machine.Executes p (publishAll events) w (.ok events.length) u ∧
      Publishes events (List.replicate events.length .sent) w u := by
  induction events generalizing w with
  | nil =>
    have nothing : machine.Executes p (publishAll []) w (.ok 0) w := Machine.Executes.ret (M := machine) (0 : ℕ) w
    exact ⟨w, nothing, .nil opening⟩
  | cons event events ih =>
    obtain ⟨u, first, opening', clock, log, table⟩ :=
      publish_sent (p := p) opening (stored event List.mem_cons_self)
    have stored' := Publishes.rest distinct stored table
    rw [List.map_cons, List.nodup_cons] at distinct
    obtain ⟨v, rest, publishes⟩ := ih opening' distinct.2 stored'
    refine ⟨v, .bind first (.bind rest ?_), .cons distinct.1 clock log table publishes⟩
    rw [List.length_cons, Nat.add_comm]
    exact .ret _ v

theorem batch_sent (p size : ℕ) (opening : w.Opening) : ∃ stale due u,
    machine.Executes p (processBatch size) w (.ok (List.length due)) u ∧
    Batch size w stale due (List.replicate due.length .sent) u := by
  obtain ⟨outcome, u, recovered⟩ := executes_some (p := p) (recoverStaleEvents size) opening
  obtain ⟨stale, rfl, recovers, opening', clock, log, table⟩ := recover_alone opening recovered
  obtain ⟨outcome, v, claimed⟩ := executes_some (p := p) (claimPendingEvents size) opening'
  obtain ⟨due, rfl, claims, opening'', clock', log', table'⟩ := claim_alone opening' claimed
  obtain ⟨distinct, stored⟩ := stored_of_claims claims table'
  obtain ⟨last, published, publishes⟩ := publishAll_sent (p := p) opening'' distinct stored
  rw [List.length_map] at published publishes
  exact ⟨stale, due, last, .bind recovered (.bind claimed published),
    .of_parts recovers clock log table claims clock' log' table' publishes⟩

/-- A batch that runs alone recovers the events that have been claimed for the longest time, publishes the
ones that have been due for the longest time, and touches nothing else; and it does run to its end. -/
theorem batch_alone (opening : w.Opening) (p size : ℕ) :
    (∀ outcome w₂, machine.Executes p (processBatch size) w outcome w₂ → ∃ stale due outcomes,
      Batch size w stale due outcomes w₂ ∧ outcome = .ok (List.count .sent outcomes)) ∧
    ∃ stale due w₂, machine.Executes p (processBatch size) w (.ok (List.length due)) w₂ ∧
      Batch size w stale due (List.replicate due.length .sent) w₂ :=
  ⟨fun _ _ executes => batch_of_executes opening executes, batch_sent p size opening⟩

/-! Three events, which two batches publish; the second of three sends fails. -/

def pair : World := { outbox with events := outbox.events.add 6 (createOutboxEvent 6 4 "DEPOSIT_POSTED" (.obj []) 2) }

def crowd : World := { pair with events := pair.events.add 7 (createOutboxEvent 7 4 "DEPOSIT_POSTED" (.obj []) 1) }

theorem crowd_opening : crowd.Opening := by
  have first : World.tick (.post 6 4 "DEPOSIT_POSTED" (.obj []) 2) outbox = some pair := rfl
  have second : World.tick (.post 7 4 "DEPOSIT_POSTED" (.obj []) 1) pair = some crowd := rfl
  have moments : Moments outbox crowd := .tail (.single (.tick _ first)) (.tick _ second)
  exact (Moments.opening outbox_opening moments).1

def firstBatch : List Choice :=
  [.proceed, .order [], .proceed, .proceed, .order [5, 7, 6]] ++ List.replicate 8 .proceed ++
    .sendFails "timeout" false :: List.replicate 4 .proceed

def secondBatch : List Choice :=
  [.proceed, .order [], .proceed, .proceed, .order [6]] ++ List.replicate 7 .proceed

theorem batch_alone_sample : ∃ w stale due outcomes, Batch 2 crowd stale due outcomes w ∧ w.log.length = 1 := by
  have executed : (machine.performs 0 (processBatch 2) firstBatch crowd).map
      (fun ended => (World.log ended.2).length) = some 1 := by decide +kernel
  obtain ⟨⟨outcome, w⟩, performed, published⟩ := Option.map_eq_some_iff.1 executed
  obtain ⟨stale, due, outcomes, batch, _⟩ := (batch_alone crowd_opening 0 2).1 outcome w (.of_performs performed)
  exact ⟨w, stale, due, outcomes, batch, published⟩

/-! Batches one after the other. -/

/-- The event is to be published now, or its worker is taken for dead. -/
def Waiting (now : Timestamp) (event : OutboxEvent) : Prop := Due now event ∨
    Stale (now - seconds claimTimeoutSeconds) event

instance (now : Timestamp) (event : OutboxEvent) : Decidable (Waiting now event) :=
  inferInstanceAs (Decidable (_ ∨ _))

def World.support (w : World) : Finset UUID := w.events.rows.keys.toFinset

def World.backlog (w : World) : ℕ := (places w.support (Waiting w.clock) w.table).card

/-- This many batches run, each of them alone, by any workers, and meanwhile no time passes. -/
inductive Batches (size : ℕ) : ℕ → World → World → Prop where
  | none (w : World) : Batches size 0 w w
  | batch {n p : ℕ} {w u v : World} {outcome : Except PyError ℕ} (earlier : Batches size n w u)
      (executes : machine.Executes p (processBatch size) u outcome v) : Batches size (n + 1) w v

theorem not_stale_of_due {now before : Timestamp} {event : OutboxEvent} (due : Due now event) :
    ¬Stale before event := by
  intro stale
  cases due.1.symm.trans stale.1

theorem waiting_settles (now : Timestamp) (event : OutboxEvent) (came : Outcome) :
    ¬Waiting now (came.settles now event) := by
  intro waiting
  cases came with
  | sent =>
    rcases waiting with due | stale
    · cases due.1
    · cases stale.1
  | refused error delivered =>
    have waiting : Waiting now (event.failed now error) := waiting
    unfold OutboxEvent.failed at waiting
    split_ifs at waiting with exhausted
    · rcases waiting with due | stale
      · cases due.1
      · cases stale.1
    · rcases waiting with due | stale
      · -- the next try is at least two seconds away
        have positive : 0 < min (2 ^ (event.failedOnce error).retryCount) maxRetryDelay :=
          lt_min (Nat.two_pow_pos _) (by decide)
        obtain ⟨delay, same⟩ :
            ∃ delay, delay = min (2 ^ (event.failedOnce error).retryCount) maxRetryDelay := ⟨_, rfl⟩
        rw [← same] at positive
        have later : now + seconds delay ≤ now := due.2 _ (by rw [same]; rfl)
        have ahead : (0 : ℤ) < delay := Int.natCast_pos.2 positive
        unfold seconds at later
        linarith
      · cases stale.1

theorem mem_zipWith {now : Timestamp} {events : List OutboxEvent} {outcomes : List Outcome} {row : OutboxEvent}
    (member : row ∈ List.zipWith (Outcome.settles now) events outcomes) : ∃ event came,
    row = Outcome.settles now event came := by
  obtain ⟨i, inside, same⟩ := List.mem_iff_getElem.1 member
  rw [List.getElem_zipWith] at same
  exact ⟨_, _, same.symm⟩

variable {size n : ℕ} {stale due : List OutboxEvent} {outcomes : List Outcome} {eventId : UUID}

theorem mem_support (stored : w.table eventId = some row) : eventId ∈ w.support :=
  List.mem_toFinset.2 (AList.mem_keys.1 (AList.lookup_isSome.1 (Option.isSome_of_eq_some stored)))

namespace Batch
variable (opening : w.Opening) (batch : Batch size w stale due outcomes w₁)
include opening batch

theorem named (found : write OutboxEvent.eventId (stale.map (·.recovered)) w.table eventId = some row) :
    row.eventId = eventId ∧ eventId ∈ w.support := by
  rcases write_cases found with ⟨written, own⟩ | ⟨_, stored⟩
  · obtain ⟨before, listed, rfl⟩ := List.mem_map.1 written
    have stored := (batch.recovers.stored before listed).1
    exact ⟨own, own ▸ mem_support stored⟩
  · exact ⟨opening.keyed eventId row stored, mem_support stored⟩

theorem covered (stored : w₁.table eventId = some row) : eventId ∈ w₁.support ∧ eventId ∈ w.support := by
  have after := mem_support stored
  rw [batch.table] at stored
  rcases write_cases stored with ⟨written, own⟩ | ⟨_, before⟩
  · have listed : eventId ∈ due.map OutboxEvent.eventId := by
      rw [← eventIds_settles w.clock batch.paired]
      exact List.mem_map.2 ⟨row, written, own⟩
    obtain ⟨event, member, rfl⟩ := List.mem_map.1 listed
    exact ⟨after, (batch.named opening (batch.claims.stored event member).1).2⟩
  · exact ⟨after, (batch.named opening before).2⟩

omit opening batch in
theorem settled (member : row ∈ List.zipWith (Outcome.settles w.clock) due outcomes) : ¬Waiting w.clock row := by
  obtain ⟨event, came, rfl⟩ := mem_zipWith member
  exact waiting_settles w.clock event came

omit opening in
theorem counts_recovered :
    (places w.support (Stale (w.clock - seconds claimTimeoutSeconds))
      (write OutboxEvent.eventId (stale.map (·.recovered)) w.table)).card + stale.length ≤
        (places w.support (Stale (w.clock - seconds claimTimeoutSeconds)) w.table).card ∧
    (places w.support (Due w.clock) (write OutboxEvent.eventId (stale.map (·.recovered)) w.table)).card ≤
      (places w.support (Due w.clock) w.table).card + stale.length := by
  constructor
  · apply card_write_add _ batch.recovers.distinct batch.recovers.stored
    · rw [List.map_map]
      exact List.map_congr_left fun _ _ => rfl
    · exact fun row member => mem_support (batch.recovers.stored row member).1
    · intro row member
      obtain ⟨before, _, rfl⟩ := List.mem_map.1 member
      intro still
      cases still.1
  · apply card_write_le.trans
    rw [List.length_map]

theorem counts_settled :
    (places w.support (Stale (w.clock - seconds claimTimeoutSeconds)) w₁.table).card ≤
      (places w.support (Stale (w.clock - seconds claimTimeoutSeconds))
        (write OutboxEvent.eventId (stale.map (·.recovered)) w.table)).card ∧
    (places w.support (Due w.clock) w₁.table).card + due.length ≤
      (places w.support (Due w.clock) (write OutboxEvent.eventId (stale.map (·.recovered)) w.table)).card := by
  rw [batch.table]
  constructor
  · apply Finset.card_le_card
    apply (places_write_subset fun row member holds => settled member (.inr holds)).trans
    exact Finset.sdiff_subset
  · apply card_write_add _ batch.claims.distinct batch.claims.stored (eventIds_settles _ batch.paired)
    · exact fun row member => (batch.named opening (batch.claims.stored row member).1).2
    · exact fun row member holds => settled member (.inl holds)

theorem backlog_le : w₁.backlog ≤ w.backlog - size := by
  have before : w.backlog = _ := card_places_or fun _ due => not_stale_of_due due
  have after : w₁.backlog = _ := card_places_or fun _ due => not_stale_of_due due
  rw [batch.clock] at after
  have dues : places w₁.support (Due w.clock) w₁.table = places w.support (Due w.clock) w₁.table :=
    places_eq fun _ _ stored => batch.covered opening stored
  have stales : places w₁.support (Stale (w.clock - seconds claimTimeoutSeconds)) w₁.table =
      places w.support _ w₁.table :=
    places_eq fun _ _ stored => batch.covered opening stored
  rw [dues, stales] at after
  have recovers := batch.recovers.length_eq fun eventId row stored =>
      ⟨opening.keyed eventId row stored, mem_support stored⟩
  have claims := batch.claims.length_eq fun _ _ found => batch.named opening found
  obtain ⟨fewer, more⟩ := batch.counts_recovered
  obtain ⟨fewer', more'⟩ := batch.counts_settled opening
  omega

end Batch

/-- Every event that waits is worked off by as many batches as are needed, whatever the broker answers: there
is then no event that a worker would take up before time passes. -/
theorem drained (opening : w.Opening) (batches : Batches size n w w₁) (enough : w.backlog ≤ n * size) :
    w₁.Opening ∧ w₁.clock = w.clock ∧ ∀ eventId row, w₁.events.rows.lookup eventId = some row →
    ¬Waiting w₁.clock row := by
  have worked : w₁.Opening ∧ w₁.clock = w.clock ∧ w₁.backlog ≤ w.backlog - n * size := by
    clear enough
    induction batches with
    | none w => exact ⟨opening, rfl, by omega⟩
    | batch earlier executes ih =>
      obtain ⟨opening', clock, less⟩ := ih opening
      obtain ⟨stale, due, outcomes, batch, _⟩ := batch_of_executes opening' executes
      have less' := batch.backlog_le opening'
      refine ⟨batch.opening, batch.clock.trans clock, ?_⟩
      rw [Nat.succ_mul]
      omega
  obtain ⟨opening', clock, less⟩ := worked
  refine ⟨opening', clock, fun eventId row stored waiting => ?_⟩
  have member : eventId ∈ places w₁.support (Waiting w₁.clock) w₁.table :=
    mem_places.2 ⟨mem_support stored, row, stored, waiting⟩
  have positive : 0 < w₁.backlog := Finset.card_pos.2 ⟨eventId, member⟩
  omega

theorem crowd_batches : ∃ w, Batches 2 2 crowd w ∧ w.log.length = 2 := by
  have executed : ((machine.performs 0 (processBatch 2) firstBatch crowd).bind fun ended =>
      machine.performs 1 (processBatch 2) secondBatch ended.2).map
        (fun ended => (World.log ended.2).length) = some 2 := by
    decide +kernel
  obtain ⟨⟨outcome, w⟩, performed, published⟩ := Option.map_eq_some_iff.1 executed
  obtain ⟨⟨_, u⟩, earlier, performed⟩ := Option.bind_eq_some_iff.1 performed
  exact ⟨w, .batch (.batch (.none crowd) (.of_performs earlier)) (.of_performs performed), published⟩

theorem drained_sample : ∃ w, Batches 2 2 crowd w ∧ crowd.backlog = 3 ∧
    ∀ eventId row, w.events.rows.lookup eventId = some row → ¬Waiting w.clock row := by
  obtain ⟨w, batches, _⟩ := crowd_batches
  have three : crowd.backlog = 3 := by decide +kernel
  exact ⟨w, batches, three, (drained crowd_opening batches (by omega)).2.2⟩

/-- What the batches since `w` have done to its due events: those they have attempted are the oldest ones. -/
structure Worked (w u : World) (attempted : List OutboxEvent) : Prop where
  opening : u.Opening
  clock : u.clock = w.clock
  ordered : attempted.Pairwise fun event later => event.createdAt ≤ later.createdAt
  distinct : (attempted.map OutboxEvent.eventId).Nodup
  stored : ∀ event ∈ attempted, w.table event.eventId = some event
  kept : ∀ eventId, eventId ∉ attempted.map OutboxEvent.eventId → u.table eventId = w.table eventId
  done : ∀ eventId ∈ attempted.map OutboxEvent.eventId, ∀ row, u.table eventId = some row →
      ¬Waiting w.clock row
  later : ∀ eventId row, u.table eventId = some row → Due w.clock row → ∀ event ∈ attempted,
      event.createdAt ≤ row.createdAt
  log : ∃ sent : List OutboxEvent, sent.Sublist attempted ∧ u.log = w.log ++ sent.map fun event =>
      (kafkaLedgerTopic, message event)

theorem delivered_sublist (events : List OutboxEvent) : ∀ outcomes : List Outcome,
    ∃ sent : List OutboxEvent, sent.Sublist events ∧
    (List.zipWith Outcome.delivers events outcomes).flatten = sent.map fun event =>
    (kafkaLedgerTopic, message event) := by
  induction events with
  | nil => exact fun _ => ⟨[], .slnil, rfl⟩
  | cons event events ih =>
    intro outcomes
    cases outcomes with
    | nil => exact ⟨[], List.nil_sublist _, rfl⟩
    | cons came outcomes =>
      obtain ⟨sent, among, same⟩ := ih outcomes
      rw [List.zipWith_cons_cons, List.flatten_cons, same]
      cases came with
      | sent => exact ⟨event :: sent, among.cons_cons event, rfl⟩
      | refused error delivered =>
        cases delivered with
        | true => exact ⟨event :: sent, among.cons_cons event, rfl⟩
        | false => exact ⟨sent, among.cons event, rfl⟩

theorem Worked.batch {attempted : List OutboxEvent} (worked : Worked w u attempted)
    (unclaimed : ∀ eventId row, w.table eventId = some row → ¬Stale (w.clock - seconds claimTimeoutSeconds) row)
    (batch : Batch size u stale due outcomes w₁) : Worked w w₁ (attempted ++ due) := by
  have clock := worked.clock
  -- nothing is stale
  have none : stale = [] := by
    apply List.eq_nil_iff_forall_not_mem.2
    intro row member
    obtain ⟨stored, late⟩ := batch.recovers.stored row member
    rw [clock] at late
    by_cases before : row.eventId ∈ attempted.map OutboxEvent.eventId
    · exact worked.done _ before row stored (.inr late)
    · exact unclaimed _ row ((worked.kept _ before).symm.trans stored) late
  subst none
  have claims : Oldest OutboxEvent.eventId u.table (Due w.clock) (·.createdAt) size due := clock ▸ batch.claims
  have table : w₁.table = write OutboxEvent.eventId (List.zipWith (Outcome.settles w.clock) due outcomes) u.table :=
    clock ▸ batch.table
  have ids := eventIds_settles w.clock batch.paired
  have fresh : ∀ event ∈ due, event.eventId ∉ attempted.map OutboxEvent.eventId := by
    intro event member before
    obtain ⟨stored, now⟩ := claims.stored event member
    exact worked.done _ before event stored (.inl now)
  have before : ∀ {eventId row}, w₁.table eventId = some row → Waiting w.clock row →
      u.table eventId = some row ∧ eventId ∉ due.map OutboxEvent.eventId := by
    intro eventId row stored waiting
    rw [table] at stored
    rcases write_cases stored with ⟨written, _⟩ | ⟨absent, stored⟩
    · exact absurd waiting (Batch.settled written)
    · exact ⟨stored, ids ▸ absent⟩
  constructor
  · exact batch.opening
  · exact batch.clock.trans clock
  · rw [List.pairwise_append]
    refine ⟨worked.ordered, claims.ordered, fun event member next chosen => ?_⟩
    obtain ⟨stored, now⟩ := claims.stored next chosen
    exact worked.later _ next stored now event member
  · rw [List.map_append, List.nodup_append']
    refine ⟨worked.distinct, claims.distinct, fun eventId member chosen => ?_⟩
    obtain ⟨event, listed, rfl⟩ := List.mem_map.1 chosen
    exact fresh event listed member
  · intro event member
    rcases List.mem_append.1 member with earlier | chosen
    · exact worked.stored event earlier
    · rw [← worked.kept _ (fresh event chosen)]
      exact (claims.stored event chosen).1
  · intro eventId absent
    rw [List.map_append, List.mem_append, not_or] at absent
    rw [table, write_of_absent (ids ▸ absent.2)]
    exact worked.kept eventId absent.1
  · intro eventId member row stored waiting
    obtain ⟨stored, absent⟩ := before stored waiting
    rw [List.map_append, List.mem_append] at member
    rcases member with earlier | chosen
    · exact worked.done eventId earlier row stored waiting
    · exact absent chosen
  · intro eventId row stored now event member
    obtain ⟨stored, absent⟩ := before stored (.inl now)
    rcases List.mem_append.1 member with earlier | chosen
    · exact worked.later eventId row stored now event earlier
    · have own := worked.opening.keyed eventId row stored
      have left : row ∉ due := fun listed => absent (own ▸ List.mem_map_of_mem listed)
      exact (claims.first eventId row stored now left).2 event chosen
  · obtain ⟨sent, among, log⟩ := worked.log
    obtain ⟨sent', among', same⟩ := delivered_sublist due outcomes
    refine ⟨sent ++ sent', among.append among', ?_⟩
    rw [batch.log, log, same, List.map_append, List.append_assoc]

/-- As long as nothing is stale the batches publish the events in the order of their creation, each of them
once at most, whatever the broker answers. -/
theorem in_order (opening : w.Opening)
    (unclaimed : ∀ eventId row, w.events.rows.lookup eventId = some row →
      ¬Stale (w.clock - seconds claimTimeoutSeconds) row)
    (batches : Batches size n w w₁) : ∃ events : List OutboxEvent,
    w₁.log = w.log ++ (events.map fun event => (kafkaLedgerTopic, message event)) ∧
      (events.Pairwise fun event later => event.createdAt ≤ later.createdAt) ∧
      (events.map OutboxEvent.eventId).Nodup ∧
      ∀ event ∈ events, w.events.rows.lookup event.eventId = some event := by
  have worked : ∃ attempted, Worked w w₁ attempted := by
    induction batches with
    | none w =>
      refine ⟨[], opening, rfl, .nil, .nil, ?_, fun _ _ => rfl, ?_, ?_, [], .slnil, (List.append_nil _).symm⟩
      · exact fun _ absurd => (List.not_mem_nil absurd).elim
      · exact fun _ absurd => (List.not_mem_nil absurd).elim
      · exact fun _ _ _ _ _ absurd => (List.not_mem_nil absurd).elim
    | batch earlier executes ih =>
      obtain ⟨attempted, worked⟩ := ih opening unclaimed
      obtain ⟨stale, due, outcomes, batch, _⟩ := batch_of_executes worked.opening executes
      exact ⟨_, worked.batch unclaimed batch⟩
  obtain ⟨attempted, worked⟩ := worked
  obtain ⟨sent, among, log⟩ := worked.log
  exact ⟨sent, log, worked.ordered.sublist among, worked.distinct.sublist (among.map _),
    fun event member => worked.stored event (among.subset member)⟩

theorem in_order_sample : ∃ (w : World) (events : List OutboxEvent), Batches 2 2 crowd w ∧ events.length = 2 ∧
    (w.log = events.map fun event => (kafkaLedgerTopic, message event)) ∧
    events.Pairwise fun event later => event.createdAt ≤ later.createdAt := by
  obtain ⟨w, batches, published⟩ := crowd_batches
  have unclaimed : ∀ eventId row, crowd.events.rows.lookup eventId = some row →
      ¬Stale (crowd.clock - seconds claimTimeoutSeconds) row := by
    have pending : ∀ entry ∈ crowd.events.rows.entries, entry.2.status = .pending := by decide +kernel
    intro eventId row stored stale
    have member := AList.mem_lookup_iff.1 stored
    cases (pending _ member).symm.trans stale.1
  obtain ⟨events, log, ordered, _⟩ := in_order crowd_opening unclaimed batches
  have log : w.log = events.map fun event => (kafkaLedgerTopic, message event) := log
  rw [log, List.length_map] at published
  exact ⟨w, events, batches, published, log, ordered⟩

end LedgerFlow.Outbox
