import LedgerFlow.Concurrency.Program
import LedgerFlow.Ledger.Model
import Mathlib.Data.List.Sort

/-! The statements of the ledger service and what they do: PostgreSQL under READ COMMITTED with row
locks and the unique idempotency key, the clock, `uuid4` and Redis. -/

namespace LedgerFlow.Ledger
open Accounts Outbox

structure Deployment where
  /-- `hashlib.sha256(text.encode("utf-8")).hexdigest()`. -/
  sha256 : String → String
  upper : String → String
  isprintable : Char → Bool
  /-- Whether the tables carry `ck_ledger_entries_amount_nonzero`. -/
  amountNonzero : Bool
  /-- Whether the insert of a ledger entry locks the account row it references (KEY SHARE). -/
  foreignKeyLocks : Bool

inductive Stmt where
  | selectAccount (accountId : UUID)
  | selectSystemCash
  /-- The rows of `account_id IN (..) ORDER BY account_id`, before they are locked. -/
  | selectAccountsIn (accountIds : List UUID)
  /-- The lock that `FOR UPDATE` takes on one row of its result. -/
  | lockAccount (accountId : UUID)
  | sumEntries (accountId : UUID)
  | sumEntriesUntil (accountId : UUID) (timestamp : Timestamp)
  | selectTransaction (idempotencyKey : String)
  | refreshTransaction (transactionId : UUID)
  | refreshAccount (accountId : UUID)
  | uuid4
  | now
  | insertAccount (account : Account)
  | insertTransaction (transaction : Transaction)
  | insertEntry (transactionId accountId : UUID) (amount : Decimal)
  | insertEvent (event : OutboxEvent)
  | savepoint
  | releaseSavepoint
  | rollbackToSavepoint
  | commit
  | rollback
  | redisGet (key : String)
  | redisSet (key value : String)
  | redisDelete (key : String)

def Stmt.Result : Stmt → Type
  | .selectAccount _ => List Account
  | .selectSystemCash => List Account
  | .selectAccountsIn _ => List Account
  | .lockAccount _ => Unit
  | .sumEntries _ => Decimal
  | .sumEntriesUntil _ _ => Decimal
  | .selectTransaction _ => List Transaction
  | .refreshTransaction _ => List Transaction
  | .refreshAccount _ => List Account
  | .uuid4 => UUID
  | .now => Timestamp
  | .insertAccount _ => Except PyError Unit
  | .insertTransaction _ => Except PyError Unit
  | .insertEntry _ _ _ => Except PyError Unit
  | .insertEvent _ => Unit
  | .savepoint => Unit
  | .releaseSavepoint => Unit
  | .rollbackToSavepoint => Unit
  | .commit => Unit
  | .rollback => Unit
  | .redisGet _ => Except PyError (Option String)
  | .redisSet _ _ => Except PyError Unit
  | .redisDelete _ => Except PyError Unit

def language : Concurrency.Language := ⟨Stmt, Stmt.Result, PyError⟩

abbrev Code := Concurrency.Prog language

inductive LockMode where
  | forUpdate
  | keyShare
  deriving DecidableEq

/-- The open database transaction of one session: the rows it has inserted so far and, inside a
savepoint, those it had inserted before. -/
structure Session where
  writes : Tables := {}
  saved : Option Tables := none

structure World where
  db : Tables
  sessions : ℕ → Session
  rowLocks : UUID → List (ℕ × LockMode)
  keyLocks : String → Option ℕ
  clock : Timestamp
  /-- The identifiers `uuid4` has returned, and to whom. -/
  issued : List (ℕ × UUID)
  redis : String → Option String

/-- What the environment decides: the value of `uuid4`, and whether Redis answers. -/
inductive Choice where
  | proceed
  | uuid (value : UUID)
  | redisDown
  deriving DecidableEq

namespace World

/-- What a statement of session `p` sees: everything committed, and its own writes. -/
def visible (p : ℕ) (w : World) : Tables := w.db ++ (w.sessions p).writes

def setSession (p : ℕ) (session : Session) (w : World) : World :=
  { w with sessions := Function.update w.sessions p session }

def write (p : ℕ) (rows : Tables) (w : World) : World :=
  w.setSession p { writes := (w.sessions p).writes ++ rows, saved := (w.sessions p).saved }

def lock (p : ℕ) (accountId : UUID) (mode : LockMode) (w : World) : World :=
  { w with rowLocks := Function.update w.rowLocks accountId ((p, mode) :: w.rowLocks accountId) }

theorem mem_rowLocks_lock {w : World} {p : ℕ} {x y : UUID} {mode : LockMode} {holder : ℕ × LockMode} :
    holder ∈ (w.lock p x mode).rowLocks y ↔ y = x ∧ holder = (p, mode) ∨ holder ∈ w.rowLocks y := by
  by_cases same : y = x
  · subst same
    simp [lock]
  · simp [lock, same]

def holdKey (p : ℕ) (key : String) (w : World) : World :=
  { w with keyLocks := Function.update w.keyLocks key (some p) }

theorem keyLocks_holdKey {w : World} {p q : ℕ} {key other : String} :
    (w.holdKey p key).keyLocks other = some q ↔ other = key ∧ p = q ∨ other ≠ key ∧
    w.keyLocks other = some q := by
  by_cases same : other = key
  · subst same
    simp [holdKey]
  · simp [holdKey, same]

def finish (p : ℕ) (w : World) : World :=
  { w with
    sessions := Function.update w.sessions p {}
    rowLocks := fun accountId => (w.rowLocks accountId).filter (·.1 ≠ p)
    keyLocks := fun key => if w.keyLocks key = some p then none else w.keyLocks key }

def commit (p : ℕ) (w : World) : World := { w with db := w.db ++ (w.sessions p).writes }.finish p

/-- Back to the savepoint: the rows inserted since are gone, with the keys and the KEY
SHARE locks they took. -/
def rollbackToSavepoint (p : ℕ) (w : World) : World :=
  let kept := (w.sessions p).saved.getD {}
  { w with
    sessions := Function.update w.sessions p { writes := kept, saved := none }
    rowLocks := fun accountId => (w.rowLocks accountId).filter (· ≠ (p, .keyShare))
    keyLocks := fun key =>
      if w.keyLocks key = some p ∧ key ∉ kept.keys then none
      else w.keyLocks key }

end World

variable (env : Deployment)

/-- One statement of session `p`; nothing where it waits for another transaction. -/
def exec (p : ℕ) : (s : Stmt) → Choice → World → Option (s.Result × World)
  | .selectAccount accountId, _, w => some ((w.visible p).accounts.filter (·.accountId = accountId), w)
  | .selectSystemCash, _, w => some ((w.visible p).accounts.filter (·.isSystemCash), w)
  | .selectAccountsIn accountIds, _, w =>
    some (((w.visible p).accounts.filter (·.accountId ∈ accountIds)).insertionSort
      (·.accountId ≤ ·.accountId), w)
  | .lockAccount accountId, _, w =>
    if ∀ holder ∈ w.rowLocks accountId, holder.1 = p then some ((), w.lock p accountId .forUpdate) else none
  | .sumEntries accountId, _, w =>
    some (coalesceSum ((w.visible p).amounts accountId), w)
  | .sumEntriesUntil accountId timestamp, _, w =>
    some (coalesceSum ((w.visible p).amountsUntil accountId timestamp), w)
  | .selectTransaction key, _, w => some ((w.visible p).transactions.filter (·.idempotencyKey = some key), w)
  | .refreshTransaction transactionId, _, w =>
    some ((w.visible p).transactions.filter (·.transactionId = transactionId), w)
  | .refreshAccount accountId, _, w => some ((w.visible p).accounts.filter (·.accountId = accountId), w)
  | .uuid4, .uuid value, w =>
    if value ∈ w.issued.map (·.2) ∨ value ∈ w.db.ids then none
    else some (value, { w with issued := (p, value) :: w.issued })
  | .uuid4, _, _ => none
  | .now, _, w => some (w.clock, w)
  | .insertAccount account, _, w =>
    match account.stored with
    | none => some (.error .dataError, w)
    | some row => some (.ok (), w.write p { accounts := [row] })
  | .insertTransaction transaction, _, w =>
    match transaction.stored with
    | none => some (.error .dataError, w)
    | some row =>
      match row.idempotencyKey with
      | none => some (.ok (), w.write p { transactions := [row] })
      | some key =>
        if (w.visible p).transactions.any (·.idempotencyKey = some key) then some (.error .integrityError, w)
        else match w.keyLocks key with
          | some _ => none
          | none => some (.ok (), (w.write p { transactions := [row] }).holdKey p key)
  | .insertEntry transactionId accountId amount, _, w =>
    match Numeric.cast 20 2 amount with
    | none => some (.error .dataError, w)
    | some stored =>
      let inserted := w.write p { entries := [⟨transactionId, accountId, stored⟩] }
      if env.amountNonzero ∧ stored.unscaled = 0 then some (.error .integrityError, w)
      else if env.foreignKeyLocks then
        if ∀ holder ∈ w.rowLocks accountId, holder.1 = p ∨ holder.2 = .keyShare then
          some (.ok (), inserted.lock p accountId .keyShare)
        else none
      else some (.ok (), inserted)
  | .insertEvent event, _, w => some ((), w.write p { events := [event] })
  | .savepoint, _, w =>
    some ((), w.setSession p { writes := (w.sessions p).writes, saved := some (w.sessions p).writes })
  | .releaseSavepoint, _, w =>
    some ((), w.setSession p { writes := (w.sessions p).writes, saved := none })
  | .rollbackToSavepoint, _, w => some ((), w.rollbackToSavepoint p)
  | .commit, _, w => some ((), w.commit p)
  | .rollback, _, w => some ((), w.finish p)
  | .redisGet _, .redisDown, w => some (.error .redisError, w)
  | .redisGet key, _, w => some (.ok (w.redis key), w)
  | .redisSet _ _, .redisDown, w => some (.error .redisError, w)
  | .redisSet key value, _, w => some (.ok (), { w with redis := Function.update w.redis key (some value) })
  | .redisDelete _, .redisDown, w => some (.error .redisError, w)
  | .redisDelete key, _, w => some (.ok (), { w with redis := Function.update w.redis key none })

variable {env}

theorem exec_insertTransaction {p : ℕ} {transaction : Transaction} {choice : Choice} {w w' : World}
    {result : Except PyError Unit}
    (executed : exec env p (.insertTransaction transaction) choice w = some (result, w')) :
    transaction.stored = none ∧ result = .error .dataError ∧ w' = w ∨
    ∃ row, transaction.stored = some row ∧
      (row.idempotencyKey = none ∧ result = .ok () ∧ w' = w.write p { transactions := [row] } ∨
      ∃ key, row.idempotencyKey = some key ∧
        ((∃ other ∈ (w.visible p).transactions, other.idempotencyKey = some key) ∧
            result = .error .integrityError ∧ w' = w ∨
          (∀ other ∈ (w.visible p).transactions, other.idempotencyKey ≠ some key) ∧ w.keyLocks key = none ∧
            result = .ok () ∧ w' = (w.write p { transactions := [row] }).holdKey p key)) := by
  simp only [exec, List.any_eq_true, decide_eq_true_eq] at executed
  split at executed
  · rename_i refused
    cases executed
    exact .inl ⟨refused, rfl, rfl⟩
  · rename_i row stored
    refine .inr ⟨row, stored, ?_⟩
    split at executed
    · rename_i keyless
      cases executed
      exact .inl ⟨keyless, rfl, rfl⟩
    · rename_i key keyed
      refine .inr ⟨key, keyed, ?_⟩
      split_ifs at executed with taken
      · cases executed
        exact .inl ⟨taken, rfl, rfl⟩
      · split at executed
        · cases executed
        · rename_i free
          cases executed
          push Not at taken
          exact .inr ⟨taken, free, rfl, rfl⟩

/-- The committed tables change by commits only, and the cache by its own commands only. -/
theorem exec_frame {p : ℕ} {s : Stmt} {choice : Choice} {w w' : World} {result : s.Result}
    (executed : exec env p s choice w = some (result, w')) :
    (s ≠ .commit → w'.db = w.db) ∧
    (match s with
      | .redisSet _ _ => True
      | .redisDelete _ => True
      | _ => w'.redis = w.redis) := by
  cases s with
  | commit =>
    simp only [exec] at executed
    cases executed
    exact ⟨fun other => absurd rfl other, rfl⟩
  | uuid4 =>
    cases choice <;> simp only [exec] at executed
    · cases executed
    · split_ifs at executed
      cases executed
      exact ⟨fun _ => rfl, rfl⟩
    · cases executed
  | redisGet | redisSet | redisDelete =>
    cases choice <;> simp only [exec] at executed <;> cases executed <;> simp
  | insertAccount account =>
    simp only [exec] at executed
    split at executed
    all_goals
      cases executed
      exact ⟨fun _ => rfl, rfl⟩
  | insertTransaction transaction =>
    rcases exec_insertTransaction executed with
      ⟨_, rfl, rfl⟩ | ⟨row, _, ⟨_, rfl, rfl⟩ | ⟨key, _, ⟨_, rfl, rfl⟩ | ⟨_, _, rfl, rfl⟩⟩⟩
    all_goals exact ⟨fun _ => rfl, rfl⟩
  | insertEntry transactionId accountId amount =>
    simp only [exec] at executed
    split at executed
    · cases executed
      exact ⟨fun _ => rfl, rfl⟩
    · split_ifs at executed <;> cases executed <;> exact ⟨fun _ => rfl, rfl⟩
  | lockAccount =>
    simp only [exec] at executed
    split_ifs at executed
    cases executed
    exact ⟨fun _ => rfl, rfl⟩
  | _ =>
    simp only [exec] at executed
    cases executed
    exact ⟨fun _ => rfl, rfl⟩

theorem exec_clock {p : ℕ} {s : Stmt} {choice : Choice} {w w' : World} {result : s.Result}
    (executed : exec env p s choice w = some (result, w')) : w'.clock = w.clock := by
  cases s with
  | uuid4 | redisGet | redisSet | redisDelete =>
    cases choice <;> simp only [exec] at executed <;> (try split_ifs at executed) <;> cases executed <;> rfl
  | insertAccount account =>
    simp only [exec] at executed
    split at executed
    all_goals
      cases executed
      rfl
  | insertTransaction transaction =>
    rcases exec_insertTransaction executed with
      ⟨_, rfl, rfl⟩ | ⟨row, _, ⟨_, rfl, rfl⟩ | ⟨key, _, ⟨_, rfl, rfl⟩ | ⟨_, _, rfl, rfl⟩⟩⟩
    all_goals rfl
  | insertEntry transactionId accountId amount =>
    simp only [exec] at executed
    split at executed
    · cases executed
      rfl
    · split_ifs at executed <;> cases executed <;> rfl
  | lockAccount =>
    simp only [exec] at executed
    split_ifs at executed
    cases executed
    rfl
  | _ =>
    cases executed
    rfl

theorem exec_issued {p : ℕ} {s : Stmt} {choice : Choice} {w w' : World} {result : s.Result}
    (executed : exec env p s choice w = some (result, w')) :
    w'.issued = w.issued ∨ ∃ value, s = .uuid4 ∧ choice = .uuid value ∧
    w'.issued = (p, value) :: w.issued := by
  cases s with
  | uuid4 =>
    cases choice <;> simp only [exec] at executed
    · cases executed
    · split_ifs at executed
      cases executed
      exact .inr ⟨_, rfl, rfl, rfl⟩
    · cases executed
  | redisGet | redisSet | redisDelete =>
    cases choice <;> simp only [exec] at executed <;> cases executed <;> exact .inl rfl
  | insertAccount account =>
    simp only [exec] at executed
    split at executed
    all_goals
      cases executed
      exact .inl rfl
  | insertTransaction transaction =>
    rcases exec_insertTransaction executed with
      ⟨_, rfl, rfl⟩ | ⟨row, _, ⟨_, rfl, rfl⟩ | ⟨key, _, ⟨_, rfl, rfl⟩ | ⟨_, _, rfl, rfl⟩⟩⟩
    all_goals exact .inl rfl
  | insertEntry transactionId accountId amount =>
    simp only [exec] at executed
    split at executed
    · cases executed
      exact .inl rfl
    · split_ifs at executed <;> cases executed <;> exact .inl rfl
  | lockAccount =>
    simp only [exec] at executed
    split_ifs at executed
    cases executed
    exact .inl rfl
  | _ =>
    cases executed
    exact .inl rfl

theorem mem_issued_of_exec {p : ℕ} {s : Stmt} {choice : Choice} {w w' : World} {result : s.Result}
    (executed : exec env p s choice w = some (result, w')) : ∀ id ∈ w.issued.map (·.2),
    id ∈ w'.issued.map (·.2) := by
  intro id member
  rcases exec_issued executed with same | ⟨value, _, _, same⟩
  · rwa [same]
  · rw [same]
    exact List.mem_cons_of_mem _ member

end LedgerFlow.Ledger
