import LedgerFlow.Ledger.Solvency
import Mathlib.Data.List.Perm.Basic

/-! The transaction history of an account, and how it agrees with the two other ways to read a balance. -/

namespace LedgerFlow.Ledger
open Accounts Outbox Concurrency

abbrev HistoryRow := Transaction × Numeric 20 2

/-- The entries on an account joined with the transactions: one row for each matching transaction. -/
def Tables.history (t : Tables) (accountId : UUID) : List HistoryRow :=
  (t.entries.filter (·.accountId = accountId)).flatMap fun entry =>
    (t.transactions.filter (·.transactionId = entry.transactionId)).map fun transaction =>
      (transaction, entry.amount)

/-- What a query makes of `ORDER BY created_at DESC`: rows of one time stand in any order. -/
structure HistoryOrder where
  arrange : List HistoryRow → List HistoryRow
  perm : ∀ rows, (arrange rows).Perm rows
  newestFirst : ∀ rows, (arrange rows).Pairwise fun a b => b.1.createdAt ≤ a.1.createdAt

def getTransactionHistory (order : HistoryOrder) (p : ℕ) (accountId : UUID) (limit offset : ℕ) (w : World) :
    Except PyError (List HistoryRow) :=
  match (w.visible p).accounts.filter (·.accountId = accountId) with
  | [] => .error (.valueError "Account not found")
  | [_] => .ok (((order.arrange ((w.visible p).history accountId)).drop offset).take limit)
  | _ => .error .multipleResultsFound

structure LedgerEntry.ShownBy (db : Tables) (entry : LedgerEntry) (row : HistoryRow) : Prop where
  member : row.1 ∈ db.transactions
  owner : row.1.transactionId = entry.transactionId
  amount : row.2 = entry.amount

/-- What a history, the balances at every time and a balance computed from all entries have to do with each other. -/
structure ReadsAgree (db : Tables) (x : UUID) (rows : List HistoryRow) (balanceAt : Timestamp → Decimal)
    (balance : Decimal) : Prop where
  between : ∀ first second, first ≤ second → (balanceAt second).toRat - (balanceAt first).toRat =
    ((rows.filter fun row => first < row.1.createdAt ∧ row.1.createdAt ≤ second).map (·.2.toRat)).sum
  complete : ∃ entries, (db.entries.filter (·.accountId = x)).Perm entries ∧
      List.Forall₂ (·.ShownBy db) entries rows
  newestFirst : rows.Pairwise fun a b => b.1.createdAt ≤ a.1.createdAt
  latest : ∀ timestamp, (∀ row ∈ rows, row.1.createdAt ≤ timestamp) → balanceAt timestamp = balance

variable {env : Deployment} {db : Tables} {w : World} {s : State (machine env)} {p : ℕ} {x : UUID}

theorem sum_filter_le {α : Type} (time : α → Timestamp) (amount : α → ℚ) {first second : Timestamp}
    (later : first ≤ second) (rows : List α) :
    ((rows.filter (time · ≤ second)).map amount).sum = ((rows.filter (time · ≤ first)).map amount).sum +
      ((rows.filter fun row => first < time row ∧ time row ≤ second).map amount).sum := by
  induction rows with
  | nil => simp
  | cons row rest ih =>
    by_cases early : time row ≤ first
    · have both : time row ≤ second := early.trans later
      have outside : ¬first < time row := not_lt.2 early
      simp only [List.filter_cons, early, both, outside, decide_true, if_true, false_and, decide_false,
        Bool.false_eq_true, if_false, List.map_cons, List.sum_cons]
      linarith
    · have late : first < time row := not_le.1 early
      by_cases inside : time row ≤ second
      · simp only [List.filter_cons, early, late, inside, decide_true, if_true, and_self, decide_false,
          Bool.false_eq_true, if_false, List.map_cons, List.sum_cons]
        linarith
      · simpa [List.filter_cons, early, inside] using ih

theorem coalesceSum_eq_sum (amounts : List (Numeric 20 2)) :
    (coalesceSum amounts).toRat = (amounts.map Numeric.toRat).sum := by
  rw [coalesceSum_toRat]
  induction amounts with
  | nil => simp
  | cons amount rest ih =>
    rw [List.map_cons, List.sum_cons, List.map_cons, List.sum_cons, ← ih, Numeric.toRat]
    push_cast
    ring

namespace Tables

theorem amountsUntil_eq_history (t : Tables) (x : UUID) (timestamp : Timestamp) :
    t.amountsUntil x timestamp = ((t.history x).filter (·.1.createdAt ≤ timestamp)).map (·.2) := by
  unfold amountsUntil history
  rw [List.filter_flatMap, List.map_flatMap]
  apply List.flatMap_congr
  intro entry _
  rw [List.filter_map, List.map_map, List.filter_filter]
  simp [Function.comp_def, and_comm]

namespace Consistent
variable (consistent : db.Consistent)
include consistent

theorem transaction_of_entry {entry : LedgerEntry} (member : entry ∈ db.entries) :
    ∃ transaction ∈ db.transactions, transaction.transactionId = entry.transactionId ∧
      db.transactions.filter (·.transactionId = entry.transactionId) = [transaction] := by
  apply (filter_unique (List.Nodup.of_map _ consistent.transactionIds) _).resolve_left
  · intro ⟨_, absent⟩
    obtain ⟨transaction, member, owner⟩ := List.mem_map.1 (consistent.transactionOf entry member)
    exact absent transaction member owner
  · intro a left b right same same'
    exact consistent.transaction_unique left right (same.trans same'.symm)

theorem history_shows (x : UUID) :
    List.Forall₂ (·.ShownBy db) (db.entries.filter (·.accountId = x)) (db.history x) := by
  suffices all : ∀ entries : List LedgerEntry, (∀ entry ∈ entries, entry ∈ db.entries) →
      List.Forall₂ (·.ShownBy db) entries (entries.flatMap fun entry =>
        (db.transactions.filter (·.transactionId = entry.transactionId)).map fun transaction =>
          (transaction, entry.amount)) by
    apply all
    intro entry member
    exact (List.mem_filter.1 member).1
  intro entries members
  induction entries with
  | nil => exact .nil
  | cons entry rest ih =>
    obtain ⟨transaction, member, owner, one⟩ := consistent.transaction_of_entry (members entry List.mem_cons_self)
    rw [List.flatMap_cons, one]
    apply List.Forall₂.cons
    · exact ⟨member, owner, rfl⟩
    · exact ih fun entry listed => members entry (List.mem_cons_of_mem _ listed)

theorem history_amounts (x : UUID) : (db.history x).map (·.2) = db.amounts x := by
  have shows := consistent.history_shows x
  unfold amounts
  generalize db.entries.filter (·.accountId = x) = entries, db.history x = rows at shows ⊢
  induction shows with
  | nil => rfl
  | cons shown _ ih => rw [List.map_cons, List.map_cons, ih, shown.amount]

end Consistent
end Tables

section Calls
variable {account : Account} (unused : w.sessions p = {})
  (found : w.db.accounts.filter (·.accountId = x) = [account])
include unused

theorem visible_of_unused : w.visible p = w.db := by simp [World.visible, unused]

include found

theorem getTransactionHistory_eq (order : HistoryOrder) (limit offset : ℕ) :
    getTransactionHistory order p x limit offset w =
    .ok (((order.arrange (w.db.history x)).drop offset).take limit) := by
  simp only [getTransactionHistory, visible_of_unused unused, found]

theorem alone_getBalanceAt_eq (choice : Choice) (timestamp : Timestamp) :
    (machine env).alone p choice (getBalanceAt x timestamp) w =
    some (.ok (coalesceSum (w.db.amountsUntil x timestamp)), w) := by
  have visible := visible_of_unused unused
  simp only [getBalanceAt, decimalOf_eq]
  change (machine env).alone p choice (scalarOneOrNone ((w.visible p).accounts.filter (·.accountId = x)) >>= _) w = _
  rw [visible, found, ← visible]
  rfl

theorem alone_computeBalance_eq (choice : Choice) : ∃ w', (machine env).alone p choice (computeBalance x) w =
    some (.ok (coalesceSum (w.db.amounts x)), w') := by
  have visible := visible_of_unused unused
  simp only [computeBalance, decimalOf_eq]
  change ∃ w', (machine env).alone p choice
    (scalarOneOrNone ((w.visible p).accounts.filter (·.accountId = x)) >>= _) w = _
  rw [visible, found, ← visible]
  cases choice <;> exact ⟨_, rfl⟩

/-- On a cache miss, which is also what a failure of Redis amounts to. -/
theorem alone_getBalance_eq {choice : Choice} (miss : choice = .redisDown ∨ w.redis (balanceCacheKey x) = none) :
    ∃ w', (machine env).alone p choice (getBalance x) w = some (.ok (coalesceSum (w.db.amounts x)), w') := by
  have missed : (machine env).alone p choice ((getCachedBalance x).attempt fun _ => .ret none) w =
      some (.ok none, w) := by
    by_cases down : choice = .redisDown
    · subst down
      rfl
    · have absent := miss.resolve_left down
      have read : (machine env).exec p (.redisGet (balanceCacheKey x)) choice w = some (.ok none, w) := by
        rw [← absent]
        cases choice with
        | redisDown => exact absurd rfl down
        | proceed | uuid => rfl
      apply Machine.alone_attempt
      exact Machine.alone_call read
  have same : (machine env).alone p choice (getBalance x) w = (machine env).alone p choice (computeBalance x) w :=
    Machine.alone_bind missed
  rw [same]
  exact alone_computeBalance_eq unused found choice

end Calls

namespace HistoryOrder
variable (order : HistoryOrder) (consistent : db.Consistent)

theorem sum_until (x : UUID) (timestamp : Timestamp) : (coalesceSum (db.amountsUntil x timestamp)).toRat =
    (((order.arrange (db.history x)).filter (·.1.createdAt ≤ timestamp)).map (·.2.toRat)).sum := by
  rw [coalesceSum_eq_sum, Tables.amountsUntil_eq_history, List.map_map]
  exact (((order.perm (db.history x)).filter _).map _).sum_eq.symm

include consistent

theorem readsAgree (x : UUID) : ReadsAgree db x (order.arrange (db.history x))
    (fun timestamp => coalesceSum (db.amountsUntil x timestamp)) (coalesceSum (db.amounts x)) where
  between first second later := by
    rw [order.sum_until, order.sum_until, sum_filter_le (fun row : HistoryRow => row.1.createdAt) _ later]
    linarith
  complete := by
    have shown : Relation.Comp (List.Forall₂ (·.ShownBy db)) List.Perm (db.entries.filter (·.accountId = x))
        (order.arrange (db.history x)) :=
      ⟨db.history x, consistent.history_shows x, (order.perm _).symm⟩
    rwa [List.forall₂_comp_perm_eq_perm_comp_forall₂] at shown
  newestFirst := order.newestFirst _
  latest timestamp stamped := by
    have all : (db.history x).filter (·.1.createdAt ≤ timestamp) = db.history x := by
      apply List.filter_eq_self.2
      intro row member
      exact decide_eq_true (stamped row ((order.perm _).mem_iff.2 member))
    rw [Tables.amountsUntil_eq_history, all, consistent.history_amounts]

end HistoryOrder

theorem readable_of_runs (opening : w.Opening)
    (runs : (machine env).Runs (machine env).anything ((machine env).initial w) s) (idle : s.procs p = none)
    (account : x ∈ s.world.db.accounts.map (·.accountId)) : World.sessions s.world p = {} ∧
    s.world.db.Consistent ∧
      ∃ account, s.world.db.accounts.filter (·.accountId = x) = [account] := by
  have covered := covers_all opening runs
  have consistent : s.world.db.Consistent := covered.inv.consistent
  obtain ⟨row, _, _, found⟩ := (consistent.account_cases x).resolve_left fun absent => absent.2 account
  exact ⟨covered.idle p idle, consistent, row, found⟩

/-- In every state of every interleaving: the three reads of an existing account return, and they agree. -/
theorem reads_agree (opening : w.Opening)
    (runs : (machine env).Runs (machine env).anything ((machine env).initial w) s)
    (idle : s.procs p = none) (account : x ∈ s.world.db.accounts.map (·.accountId))
    (order : HistoryOrder) {limit : ℕ}
    (enough : (s.world.db.history x).length ≤ limit) : ∃ rows balanceAt balance,
      getTransactionHistory order p x limit 0 s.world = .ok rows ∧
      (∀ choice timestamp, (machine env).alone p choice (getBalanceAt x timestamp) s.world =
        some (.ok (balanceAt timestamp), s.world)) ∧
      (∀ choice, choice = .redisDown ∨ s.world.redis (balanceCacheKey x) = none →
        ∃ w', (machine env).alone p choice (getBalance x) s.world = some (.ok balance, w')) ∧
      ReadsAgree s.world.db x rows balanceAt balance := by
  obtain ⟨unused, consistent, row, found⟩ := readable_of_runs opening runs idle account
  refine ⟨_, _, _, ?_, alone_getBalanceAt_eq unused found, fun _ => alone_getBalance_eq unused found,
    order.readsAgree consistent x⟩
  rw [getTransactionHistory_eq unused found, List.drop_zero, List.take_of_length_le]
  rwa [(order.perm _).length_eq]

instance : Std.Total fun a b : HistoryRow => b.1.createdAt ≤ a.1.createdAt :=
  ⟨fun a b => le_total b.1.createdAt a.1.createdAt⟩

instance : IsTrans HistoryRow fun a b => b.1.createdAt ≤ a.1.createdAt :=
  ⟨fun _ _ _ first second => second.trans first⟩

def stableOrder : HistoryOrder where
  arrange := List.insertionSort fun a b => b.1.createdAt ≤ a.1.createdAt
  perm := List.perm_insertionSort _
  newestFirst := List.pairwise_insertionSort _

/-- A deposit one microsecond after Alice's first one. -/
theorem reads_agree_sample :
    ∃ (s : State (machine sample)) (rows : List HistoryRow) (balanceAt : Timestamp → Decimal)
    (balance : Decimal), getTransactionHistory stableOrder 1 2 50 0 s.world = .ok rows ∧
      s.world.db.entries.map (·.amount.unscaled) = [-10000, 10000, -100, 100] ∧
      ReadsAgree s.world.db 2 rows balanceAt balance := by
  have executed : ((machine sample).run (fun _ _ => true) ((machine sample).initial bank)
      ([.tick (1 : ℕ)] ++ deposit 0 oneRupee)).map (fun s => ((s.procs 1).isNone,
        decide (2 ∈ (s.world : World).db.accounts.map (·.accountId)),
          decide (((s.world : World).db.history 2).length ≤ 50),
        (s.world : World).db.entries.map (·.amount.unscaled))) =
          some (true, true, true, [-10000, 10000, -100, 100]) := by
    decide +kernel
  obtain ⟨s, runs, observed⟩ := Machine.Runs.of_observed _ (fun _ _ _ => trivial) executed
  simp only [Prod.mk.injEq, decide_eq_true_eq, Option.isNone_iff_eq_none] at observed
  obtain ⟨idle, account, enough, amounts⟩ := observed
  obtain ⟨rows, balanceAt, balance, read, _, _, agree⟩ :=
    reads_agree bank_opening runs idle account stableOrder enough
  exact ⟨s, rows, balanceAt, balance, read, amounts, agree⟩

end LedgerFlow.Ledger
