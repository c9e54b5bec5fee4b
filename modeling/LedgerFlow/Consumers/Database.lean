import LedgerFlow.Concurrency.Program
import LedgerFlow.Concurrency.Store
import LedgerFlow.Consumers.Model

/-! The statements of the consumer and what they do: PostgreSQL under READ COMMITTED with row locks, the
clock and the committed offsets of the consumer group. -/

namespace LedgerFlow.Consumers
open Concurrency

inductive Stmt where
  | now
  | insertProcessed (eventId : UUID) (eventType : Json) (processedAt : Timestamp)
  /-- `INSERT .. ON CONFLICT (account_id) DO UPDATE SET balance = balance + excluded.balance`. -/
  | upsert (accountId : UUID) (delta : Decimal.Number) (updatedAt : Timestamp)
  | commit
  | rollback
  | commitOffset (topic : String) (partition offset : ℕ)

def Stmt.Result : Stmt → Type
  | .now => Timestamp
  | .insertProcessed _ _ _ => Except PyError Unit
  | .upsert _ _ _ => Except PyError Unit
  | .commit => Unit
  | .rollback => Unit
  | .commitOffset _ _ _ => Except PyError Unit

def language : Language := ⟨Stmt, Stmt.Result, PyError⟩

abbrev Code := Prog language

structure World where
  processed : Store UUID ProcessedEvent
  projections : Store UUID AccountBalanceProjection
  clock : Timestamp
  offsets : String × ℕ → Option ℕ

inductive Choice where
  | proceed
  | kafkaDown (error : String)
  deriving DecidableEq

/-- The row that an upsert of `excluded` leaves where it finds `row`. -/
def upserted (accountId : UUID) (excluded : Balance) (updatedAt : Timestamp) :
    Option AccountBalanceProjection → Option AccountBalanceProjection
  | none => some ⟨accountId, excluded, updatedAt⟩
  | some row => (row.balance.add excluded).map fun balance => { row with balance, updatedAt }

/-- One statement of session `p`; nothing where it waits for another transaction. -/
def exec (p : ℕ) : (s : Stmt) → Choice → World → Option (s.Result × World)
  | .now, _, w => some (w.clock, w)
  | .insertProcessed eventId eventType processedAt, _, w =>
    match eventType with
    | .str text =>
      match varchar 100 text with
      | none => some (.error .dataError, w)
      | some kept =>
        if w.processed.Free p eventId then
          if (w.processed.visible p eventId).isSome then some (.error .integrityError, w)
          else some (.ok (), { w with processed := w.processed.draft p eventId ⟨eventId, kept, processedAt⟩ })
        else none
    -- NOT NULL is an integrity error, too
    | .null => some (.error .integrityError, w)
    | _ => some (.error .dataError, w)
  | .upsert accountId delta updatedAt, _, w =>
    match Balance.ofNumber delta with
    | none => some (.error .dataError, w)
    | some excluded =>
      if w.projections.Free p accountId then
        match upserted accountId excluded updatedAt (w.projections.visible p accountId) with
        | none => some (.error .dataError, w)
        | some row => some (.ok (), { w with projections := w.projections.draft p accountId row })
      else none
  | .commit, _, w =>
    some ((), { w with processed := w.processed.commit p, projections := w.projections.commit p })
  | .rollback, _, w =>
    some ((), { w with processed := w.processed.finish p, projections := w.projections.finish p })
  | .commitOffset topic partition offset, .proceed, w =>
    some (.ok (), { w with offsets := Function.update w.offsets (topic, partition) (some offset) })
  | .commitOffset _ _ _, .kafkaDown error, w => some (.error (.kafkaError error), w)

end LedgerFlow.Consumers
