import LedgerFlow.Concurrency.Program
import LedgerFlow.Concurrency.Store
import LedgerFlow.Outbox.Model

/-! The statements of the outbox worker and what they do: PostgreSQL under READ COMMITTED with row locks,
the clock and the Kafka topic. -/

namespace LedgerFlow.Outbox
open Concurrency

inductive Stmt where
  | now
  /-- `SELECT .. WHERE status = 'PENDING' AND (next_retry_at IS NULL OR next_retry_at <= now) ORDER BY created_at
  LIMIT .. FOR UPDATE SKIP LOCKED`. -/
  | selectPending (now : Timestamp) (limit : ℕ)
  /-- `SELECT .. WHERE status = 'PROCESSING' AND claimed_at <= stale_before ORDER BY
  claimed_at LIMIT .. FOR UPDATE SKIP LOCKED`. -/
  | selectStale (staleBefore : Timestamp) (limit : ℕ)
  | get (eventId : UUID)
  | update (loaded edited : OutboxEvent)
  | commit
  | send (topic : String) (message : Json)

def Stmt.Result : Stmt → Type
  | .now => Timestamp
  | .selectPending _ _ => List OutboxEvent
  | .selectStale _ _ => List OutboxEvent
  | .get _ => Option OutboxEvent
  | .update _ _ => Except PyError Unit
  | .commit => Unit
  | .send _ _ => Except String Unit

def language : Language := ⟨Stmt, Stmt.Result, PyError⟩

abbrev Code := Prog language

structure World where
  events : Store UUID OutboxEvent
  clock : Timestamp
  log : List (String × Json)

/-- What the environment decides: the order in which a query returns its rows, and whether a send fails, with the
message delivered or not. -/
inductive Choice where
  | proceed
  | order (eventIds : List UUID)
  | sendFails (error : String) (delivered : Bool)
  deriving DecidableEq

inductive Tick where
  | elapse (microseconds : ℕ)
  | post (eventId aggregateId : UUID) (eventType : String) (payload : Json) (createdAt : Timestamp)

def Due (now : Timestamp) (event : OutboxEvent) : Prop :=
  event.status = .pending ∧ ∀ retry ∈ event.nextRetryAt, retry ≤ now

instance (now : Timestamp) (event : OutboxEvent) : Decidable (Due now event) := inferInstanceAs (Decidable (_ ∧ _))

def Stale (staleBefore : Timestamp) (event : OutboxEvent) : Prop :=
  event.status = .processing ∧ ∃ claimed, event.claimedAt = some claimed ∧ claimed ≤ staleBefore

instance (staleBefore : Timestamp) (event : OutboxEvent) : Decidable (Stale staleBefore event) :=
  match claimed : event.claimedAt with
  | none => isFalse fun stale => by simp [Stale, claimed] at stale
  | some t => decidable_of_iff (event.status = .processing ∧ t ≤ staleBefore) (by simp [Stale, claimed])

namespace World

def message (topic : String) (document : Json) (w : World) : World := { w with log := w.log ++ [(topic, document)] }

/-- `SELECT .. ORDER BY key LIMIT limit FOR UPDATE SKIP LOCKED`: of the rows that match and that no other session has
locked the first ones are locked. Rows with the same key come in any order. -/
def selectForUpdate (p : ℕ) (Matches : OutboxEvent → Prop) [DecidablePred Matches]
    (key : OutboxEvent → Timestamp)
    (limit : ℕ) (eventIds : List UUID) (w : World) : Option (List OutboxEvent × World) :=
  let found := w.events.rows.keys.filter fun eventId =>
    w.events.Free p eventId ∧ ∃ row ∈ w.events.visible p eventId, Matches row
  let rows := eventIds.filterMap fun eventId => w.events.visible p eventId
  if eventIds.Perm found ∧ rows.Pairwise (key · ≤ key ·) then
    let chosen := eventIds.take limit
    some (chosen.filterMap fun eventId => w.events.visible p eventId, { w with events := w.events.lockAll p chosen })
  else none

end World

/-- One statement of session `p`; nothing where it waits for another transaction. -/
def exec (p : ℕ) : (s : Stmt) → Choice → World → Option (s.Result × World)
  | .now, _, w => some (w.clock, w)
  | .selectPending now limit, .order eventIds, w => w.selectForUpdate p (Due now) (·.createdAt) limit eventIds
  | .selectPending _ _, _, _ => none
  | .selectStale staleBefore limit, .order eventIds, w =>
    w.selectForUpdate p (Stale staleBefore) (fun event => event.claimedAt.getD 0) limit eventIds
  | .selectStale _ _, _, _ => none
  | .get eventId, _, w => some (w.events.visible p eventId, w)
  | .update loaded edited, _, w =>
    if w.events.Free p loaded.eventId then
      match w.events.visible p loaded.eventId with
      | none => some (.error .failure, w)
      | some row => some (.ok (), { w with events := w.events.draft p loaded.eventId (row.merge loaded edited) })
    else none
  | .commit, _, w => some ((), { w with events := w.events.commit p })
  | .send topic document, .sendFails error delivered, w =>
    some (.error error, if delivered then w.message topic document else w)
  | .send topic document, _, w => some (.ok (), w.message topic document)

def World.tick : Tick → World → Option World
  | .elapse microseconds, w => some { w with clock := w.clock + microseconds }
  | .post eventId aggregateId eventType payload createdAt, w =>
    if eventId ∈ w.events.rows ∨ w.events.locks eventId ≠ none then none
    else some { w with
      events := w.events.add eventId (createOutboxEvent eventId aggregateId eventType payload createdAt) }

end LedgerFlow.Outbox
