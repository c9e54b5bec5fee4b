import LedgerFlow.Concurrency.RelyGuarantee
import LedgerFlow.Outbox.Worker

/-! The life of an outbox event: what a commit of the worker can make of it, and the contract that every
session of `process_batch` keeps. -/

namespace LedgerFlow.Outbox
open Concurrency

/-- What `mark_failed` makes of the event it has loaded. -/
inductive Fails (loaded : OutboxEvent) : OutboxEvent → Prop where
  | gaveUp (error : String) (exhausted : maxRetries ≤ loaded.retryCount + 1) : Fails loaded (loaded.gaveUp error)
  | retried (error : String) (now : Timestamp) (left : loaded.retryCount + 1 < maxRetries) :
      Fails loaded (loaded.retried error now)

inductive Marks (loaded : OutboxEvent) : OutboxEvent → Prop where
  | published (now : Timestamp) : Marks loaded (loaded.published now)
  | failed {edited : OutboxEvent} (fails : Fails loaded edited) : Marks loaded edited

/-- The statements of the open transaction: those since the last commit. -/
def sinceCommit : List (Stmt × World) → List (Stmt × World)
  | [] => []
  | (.commit, _) :: _ => []
  | executed :: past => executed :: sinceCommit past

/-- What a commit at `clock` can make of an event: the session that has executed `past`
recovers it, claims it or marks it. -/
inductive Moves (past : List (Stmt × World)) (clock : Timestamp) (row : OutboxEvent) : OutboxEvent → Prop where
  | recovers (now claimed : Timestamp) (processing : row.status = .processing) (since : row.claimedAt = some claimed)
      (stale : claimed + seconds claimTimeoutSeconds ≤ now) (before : now ≤ clock) :
        Moves past clock row row.recovered
  | claims (now : Timestamp) (due : Due now row) (before : now ≤ clock) : Moves past clock row (row.claimed now)
  | marks (loaded edited : OutboxEvent) (w : World) (earlier : List (Stmt × World))
      (updated : past = (.update loaded edited, w) :: earlier) (same : loaded.eventId = row.eventId)
      (marks : Marks loaded edited) : Moves past clock row (row.merge loaded edited)

namespace OutboxEvent
variable {α : Type} [DecidableEq α]

@[simp] theorem column_loaded (loaded edited : α) : column loaded edited loaded = edited := by
  unfold column
  split_ifs with same
  · exact same.symm
  · rfl

@[simp] theorem column_edited (loaded edited : α) : column loaded edited edited = edited := ite_self _

@[simp] theorem merge_claimed (now : Timestamp) (row : OutboxEvent) :
    row.merge row (row.claimed now) = row.claimed now := by
  simp [merge, claimed]

@[simp] theorem merge_recovered (row : OutboxEvent) : row.merge row row.recovered = row.recovered := by
  simp [merge, recovered]

end OutboxEvent

theorem Marks.claimedAt {loaded edited : OutboxEvent} (marks : Marks loaded edited) : edited.claimedAt = none := by
  rcases marks with now | ⟨_ | _⟩ <;> rfl

theorem mem_sinceCommit {executed : Stmt × World} {stmt : Stmt} {w : World} {past : List (Stmt × World)}
    (member : executed ∈ sinceCommit ((stmt, w) :: past)) : executed = (stmt, w) ∨
    executed ∈ sinceCommit past := by
  cases stmt with
  | commit => cases member
  | _ => exact List.mem_cons.1 member

structure World.Valid (w : World) : Prop where
  store : w.events.Valid
  keyed : ∀ eventId row, w.events.rows.lookup eventId = some row → row.eventId = eventId
  draftKeyed : ∀ p eventId row, (w.events.drafts p).lookup eventId = some row → row.eventId = eventId

structure World.Rely (p : ℕ) (w w' : World) : Prop where
  events : Store.Kept p w.events w'.events
  clock : w.clock ≤ w'.clock

structure World.Opening (w : World) : Prop where
  store : w.events.Opening
  keyed : ∀ eventId row, w.events.rows.lookup eventId = some row → row.eventId = eventId

variable {p : ℕ} {w w' w'' : World}

theorem World.Opening.valid (opening : w.Opening) : w.Valid where
  store := opening.store.valid
  keyed := opening.keyed
  draftKeyed p eventId row drafted := by
    rw [opening.store.drafts p] at drafted
    cases drafted

theorem World.Rely.refl (p : ℕ) (w : World) : World.Rely p w w := ⟨.refl p _, le_refl _⟩

theorem World.Rely.trans (first : World.Rely p w w') (second : World.Rely p w' w'') : World.Rely p w w'' :=
  ⟨first.events.trans second.events, first.clock.trans second.clock⟩

theorem World.Valid.visible (valid : w.Valid) {eventId : UUID} {row : OutboxEvent}
    (seen : w.events.visible p eventId = some row) : row.eventId = eventId := by
  rcases AList.lookup_union_eq_some.1 seen with drafted | ⟨_, stored⟩
  · exact valid.draftKeyed p eventId row drafted
  · exact valid.keyed eventId row stored

theorem World.Valid.commit (valid : w.Valid) : World.Valid { w with events := w.events.commit p } where
  store := valid.store.commit
  keyed _ _ seen := valid.visible seen
  draftKeyed q eventId row drafted := by
    by_cases mine : q = p
    · subst mine
      rw [Store.drafts_commit] at drafted
      cases drafted
    · exact valid.draftKeyed q eventId row
        (by simpa [Store.commit, Store.finish, Function.update_of_ne mine] using drafted)

theorem World.Valid.finish (valid : w.Valid) : World.Valid { w with events := w.events.finish p } where
  store := valid.store.finish
  keyed := valid.keyed
  draftKeyed q eventId row drafted := by
    by_cases mine : q = p
    · subst mine
      rw [Store.drafts_finish] at drafted
      cases drafted
    · exact valid.draftKeyed q eventId row (by simpa [Store.finish, Function.update_of_ne mine] using drafted)

theorem World.Valid.draft (valid : w.Valid) {eventId : UUID} {row : OutboxEvent} (free : w.events.Free p eventId)
    (keyed : row.eventId = eventId) : World.Valid { w with events := w.events.draft p eventId row } where
  store := valid.store.draft free
  keyed := valid.keyed
  draftKeyed q id v drafted := by
    rcases Store.drafted_cases drafted with ⟨_, rfl, rfl⟩ | earlier
    · exact keyed
    · exact valid.draftKeyed q id v earlier

theorem World.Valid.lockAll (valid : w.Valid) {eventIds : List UUID}
    (free : ∀ id ∈ eventIds, w.events.Free p id) :
    World.Valid { w with events := w.events.lockAll p eventIds } :=
  ⟨valid.store.lockAll free, valid.keyed, valid.draftKeyed⟩

/-- What one statement of process `p`, with `before` executed so far, does to the world. -/
structure Guar (p : ℕ) (before : Proc machine) (w w' : World) : Prop where
  valid : w'.Valid
  others : ∀ q, q ≠ p → World.Rely q w w'
  quiet : before.rest.head ≠ some .commit → w'.events.rows = w.events.rows
  moves : ∀ eventId, w'.events.rows.lookup eventId = w.events.rows.lookup eventId ∨
    ∃ row row', w.events.rows.lookup eventId = some row ∧ w'.events.rows.lookup eventId = some row' ∧
      Moves before.past w.clock row row'
  /-- The commit of a claim takes events that are due. -/
  claims : ∀ loaded edited w₁ t, before.rest.head = some .commit →
    (.update loaded edited, w₁) ∈ sinceCommit before.past → edited.claimedAt = some t →
    w.events.rows.lookup loaded.eventId = some loaded ∧ Due t loaded ∧ t ≤ w.clock ∧
      w'.events.rows.lookup loaded.eventId = some (loaded.claimed t)

def contract : Contract machine where
  inv := World.Valid
  rely := World.Rely
  guar p before w _ w' := Guar p before w w'
  post _ _ _ := True

theorem Guar.frame {before : Proc machine} (uncommitted : before.rest.head ≠ some .commit) (valid : w'.Valid)
    (others : ∀ q, q ≠ p → World.Rely q w w') (rows : w'.events.rows = w.events.rows) : Guar p before w w' where
  valid := valid
  others := others
  quiet _ := rows
  moves eventId := .inl (by rw [rows])
  claims _ _ _ _ commits := absurd commits uncommitted

theorem World.selectForUpdate_cases {Matches : OutboxEvent → Prop} [DecidablePred Matches]
    {key : OutboxEvent → Timestamp} {limit : ℕ} {eventIds : List UUID} {rows : List OutboxEvent}
    (selected : w.selectForUpdate p Matches key limit eventIds = some (rows, w')) :
    ∃ locked : List UUID, (∀ id ∈ locked, w.events.Free p id) ∧
      w' = { w with events := w.events.lockAll p locked } ∧
      ∀ row ∈ rows, ∃ id ∈ locked, w.events.visible p id = some row ∧ Matches row := by
  simp only [selectForUpdate] at selected
  split_ifs at selected with answers
  simp only [Option.some.injEq, Prod.mk.injEq] at selected
  obtain ⟨rfl, rfl⟩ := selected
  have found : ∀ id ∈ eventIds.take limit, w.events.Free p id ∧ ∃ row ∈ w.events.visible p id,
      Matches row := by
    intro id member
    have listed := answers.1.mem_iff.1 (List.mem_of_mem_take member)
    simpa using (List.mem_filter.1 listed).2
  refine ⟨eventIds.take limit, fun id member => (found id member).1, rfl, fun row member => ?_⟩
  obtain ⟨id, chosen, seen⟩ := List.mem_filterMap.1 member
  obtain ⟨_, row', seen', matched⟩ := found id chosen
  cases seen.symm.trans seen'
  exact ⟨id, chosen, seen, matched⟩

theorem send_cases {topic : String} {document : Json} {choice : Choice} {result : Except String Unit}
    (executed : exec p (.send topic document) choice w = some (result, w')) :
    result = .ok () ∧ w' = w.message topic document ∨
      ∃ (error : String) (delivered : Bool), result = .error error ∧
      w' = if delivered then w.message topic document else w := by
  cases choice with
  | sendFails error delivered =>
    cases executed
    exact .inr ⟨error, delivered, rfl, rfl⟩
  | _ =>
    cases executed
    exact .inl ⟨rfl, rfl⟩

theorem exec_send {topic : String} {document : Json} {choice : Choice} {result : Except String Unit}
    (executed : exec p (.send topic document) choice w = some (result, w')) : w'.events = w.events ∧
    w'.clock = w.clock := by
  rcases send_cases executed with ⟨_, rfl⟩ | ⟨error, delivered, _, rfl⟩
  · exact ⟨rfl, rfl⟩
  · cases delivered <;> exact ⟨rfl, rfl⟩

theorem exec_update {loaded edited : OutboxEvent} (choice : Choice) {result : Except PyError Unit}
    (executed : exec p (.update loaded edited) choice w = some (result, w')) : w.events.Free p loaded.eventId ∧
      (w.events.visible p loaded.eventId = none ∧ result = .error .failure ∧ w' = w ∨ ∃ row,
        w.events.visible p loaded.eventId = some row ∧ result = .ok () ∧
        w' = { w with events := w.events.draft p loaded.eventId (row.merge loaded edited) }) := by
  simp only [exec] at executed
  split_ifs at executed with free
  refine ⟨free, ?_⟩
  cases seen : w.events.visible p loaded.eventId with
  | none =>
    simp only [seen] at executed
    cases executed
    exact .inl ⟨rfl, rfl, rfl⟩
  | some row =>
    simp only [seen] at executed
    cases executed
    exact .inr ⟨row, rfl, rfl, rfl⟩

theorem log_of_exec {stmt : Stmt} {choice : Choice} {result : stmt.Result}
    (other : ∀ topic document, stmt ≠ .send topic document)
    (executed : exec p stmt choice w = some (result, w')) : w'.log = w.log := by
  cases stmt with
  | now | get | commit =>
    cases executed
    rfl
  | selectPending | selectStale =>
    cases choice with
    | order eventIds =>
      obtain ⟨_, _, rfl, _⟩ := World.selectForUpdate_cases executed
      rfl
    | _ => cases executed
  | update loaded edited =>
    obtain ⟨_, ⟨_, _, rfl⟩ | ⟨_, _, _, rfl⟩⟩ := exec_update choice executed
    · rfl
    · rfl
  | send topic document => exact absurd rfl (other topic document)

end LedgerFlow.Outbox
