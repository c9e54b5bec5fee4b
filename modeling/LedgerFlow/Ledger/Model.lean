import LedgerFlow.Accounts.Model
import LedgerFlow.Arithmetic.Numeric
import LedgerFlow.Outbox.Model
import LedgerFlow.Text.Decimal

/-! Transactions, ledger entries, and the tables that one database transaction writes together. -/

namespace LedgerFlow.Ledger
open Accounts Outbox

inductive TransactionType where
  | deposit
  | withdrawal
  | transfer
  deriving DecidableEq, Repr

inductive TransactionStatus where
  | pending
  | posted
  | failed
  deriving DecidableEq, Repr

structure Transaction where
  transactionId : UUID
  transactionType : TransactionType
  status : TransactionStatus
  reference : Option String
  idempotencyKey : Option String
  requestHash : Option String
  createdAt : Timestamp
  deriving DecidableEq, Repr

/-- The row as its columns keep it, nothing where one of them refuses its value. -/
def Transaction.stored (transaction : Transaction) : Option Transaction :=
  match transaction.idempotencyKey with
  | none => some transaction
  | some key => (varchar 255 key).map fun kept => { transaction with idempotencyKey := some kept }

theorem Transaction.stored_keyless {transaction : Transaction} (keyless : transaction.idempotencyKey = none) :
    transaction.stored = some transaction := by
  simp [stored, keyless]

theorem Transaction.stored_keyed {transaction : Transaction} {key : String}
    (keyed : transaction.idempotencyKey = some key) : transaction.stored =
      (varchar 255 key).map fun kept => { transaction with idempotencyKey := some kept } := by
  simp [stored, keyed]

theorem Transaction.stored_cases {transaction row : Transaction} (stored : transaction.stored = some row) :
    row = { transaction with idempotencyKey := row.idempotencyKey } ∧
      row.idempotencyKey = transaction.idempotencyKey.bind (varchar 255) := by
  cases keyed : transaction.idempotencyKey with
  | none =>
    rw [stored_keyless keyed] at stored
    cases stored
    exact ⟨rfl, keyed⟩
  | some key =>
    rw [stored_keyed keyed, Option.map_eq_some_iff] at stored
    obtain ⟨kept, keeps, rfl⟩ := stored
    exact ⟨rfl, keeps.symm⟩

structure LedgerEntry where
  transactionId : UUID
  accountId : UUID
  amount : Numeric 20 2
  deriving DecidableEq

/-- An amount the request schemas permit: `Field(gt=0)`. -/
structure Amount where
  value : Decimal
  sign : value.sign = false
  nonzero : value.int ≠ 0
  deriving DecidableEq

/-- `coalesce(sum(amount), 0)` of the amounts a query found. -/
def coalesceSum (amounts : List (Numeric 20 2)) : Decimal :=
  if amounts = [] then .ofNat 0 else .ofUnits (amounts.map (·.unscaled)).sum 2

theorem coalesceSum_toRat (amounts : List (Numeric 20 2)) :
    (coalesceSum amounts).toRat = ((amounts.map (·.unscaled)).sum : ℤ) / 100 := by
  unfold coalesceSum
  split_ifs with empty
  · simp [empty, Decimal.toRat, Decimal.magnitude, Decimal.ofNat]
  · rw [Decimal.ofUnits_toRat]
    norm_num

@[ext]
structure Tables where
  accounts : List Account := []
  transactions : List Transaction := []
  entries : List LedgerEntry := []
  events : List OutboxEvent := []
  deriving DecidableEq

namespace Tables

def append (a b : Tables) : Tables where
  accounts := a.accounts ++ b.accounts
  transactions := a.transactions ++ b.transactions
  entries := a.entries ++ b.entries
  events := a.events ++ b.events

instance : Append Tables := ⟨append⟩

@[simp] theorem append_accounts (a b : Tables) : (a ++ b).accounts = a.accounts ++ b.accounts := rfl
@[simp] theorem append_transactions (a b : Tables) : (a ++ b).transactions = a.transactions ++ b.transactions := rfl
@[simp] theorem append_entries (a b : Tables) : (a ++ b).entries = a.entries ++ b.entries := rfl
@[simp] theorem append_events (a b : Tables) : (a ++ b).events = a.events ++ b.events := rfl

@[simp] theorem append_empty (a : Tables) : a ++ ({} : Tables) = a := by
  ext1 <;> simp

@[simp] theorem empty_append (a : Tables) : ({} : Tables) ++ a = a := rfl

theorem append_assoc (a b c : Tables) : a ++ b ++ c = a ++ (b ++ c) := by
  ext1 <;> simp

def ids (t : Tables) : List UUID :=
  t.accounts.map (·.accountId) ++ t.transactions.map (·.transactionId) ++ t.events.map (·.eventId)

def keys (t : Tables) : List String := t.transactions.filterMap (·.idempotencyKey)

def amounts (t : Tables) (accountId : UUID) : List (Numeric 20 2) :=
  (t.entries.filter (·.accountId = accountId)).map (·.amount)

def entriesOf (t : Tables) (transactionId : UUID) : List LedgerEntry :=
  t.entries.filter (·.transactionId = transactionId)

/-- The amounts of the entries on an account whose transaction is stamped by `timestamp`: one row of the
join for each matching transaction. -/
def amountsUntil (t : Tables) (accountId : UUID) (timestamp : Timestamp) : List (Numeric 20 2) :=
  (t.entries.filter (·.accountId = accountId)).flatMap fun entry =>
    (t.transactions.filter fun transaction =>
      transaction.transactionId = entry.transactionId ∧ transaction.createdAt ≤ timestamp).map fun _ =>
        entry.amount

/-- The sum of the stored amounts on an account, in cents. -/
def balance (t : Tables) (accountId : UUID) : ℤ := ((t.amounts accountId).map (·.unscaled)).sum

def IsSystemCash (t : Tables) (accountId : UUID) : Prop :=
  ∃ account ∈ t.accounts, account.accountId = accountId ∧ account.isSystemCash

/-- What the primary keys, the foreign keys and the column of the unique idempotency key ensure. -/
structure Consistent (t : Tables) : Prop where
  accountIds : (t.accounts.map (·.accountId)).Nodup
  transactionIds : (t.transactions.map (·.transactionId)).Nodup
  eventIds : (t.events.map (·.eventId)).Nodup
  idempotencyKeys : t.keys.Nodup
  fits : ∀ key ∈ t.keys, varchar 255 key = some key
  transactionOf : ∀ entry ∈ t.entries, entry.transactionId ∈ t.transactions.map (·.transactionId)
  accountOf : ∀ entry ∈ t.entries, entry.accountId ∈ t.accounts.map (·.accountId)

@[simp] theorem mem_ids_append {a b : Tables} {id : UUID} : id ∈ (a ++ b).ids ↔ id ∈ a.ids ∨
    id ∈ b.ids := by
  simp only [ids, append_accounts, append_transactions, append_events, List.map_append, List.mem_append]
  tauto

@[simp] theorem keys_append (a b : Tables) : (a ++ b).keys = a.keys ++ b.keys := by
  simp [keys]

@[simp] theorem amounts_append (a b : Tables) (accountId : UUID) :
    (a ++ b).amounts accountId = a.amounts accountId ++ b.amounts accountId := by
  simp [amounts]

@[simp] theorem balance_append (a b : Tables) (accountId : UUID) :
    (a ++ b).balance accountId = a.balance accountId + b.balance accountId := by
  simp [balance]

@[simp] theorem entriesOf_append (a b : Tables) (transactionId : UUID) :
    (a ++ b).entriesOf transactionId = a.entriesOf transactionId ++ b.entriesOf transactionId := by
  simp [entriesOf]

theorem total_toRat (t : Tables) (accountId : UUID) :
    (coalesceSum (t.amounts accountId)).toRat = t.balance accountId / 100 :=
  coalesceSum_toRat _

theorem IsSystemCash.append {a b : Tables} {accountId : UUID} (cash : a.IsSystemCash accountId) :
    (a ++ b).IsSystemCash accountId := by
  obtain ⟨account, member, same, isCash⟩ := cash
  exact ⟨account, List.mem_append_left _ member, same, isCash⟩

theorem find_account {rows : List Account} {x : UUID} (member : x ∈ rows.map (·.accountId)) :
    ∃ account ∈ rows, account.accountId = x ∧ rows.find? (·.accountId = x) = some account := by
  obtain ⟨account, listed, same⟩ := List.mem_map.1 member
  have some : (rows.find? (·.accountId = x)).isSome := List.find?_isSome.2 ⟨account, listed, by simpa using same⟩
  obtain ⟨found, equal⟩ := Option.isSome_iff_exists.1 some
  exact ⟨found, List.mem_of_find?_eq_some equal, by simpa using List.find?_some equal, equal⟩

theorem filter_unique {α : Type} {l : List α} {P : α → Prop} [DecidablePred P] (nodup : l.Nodup)
    (unique : ∀ a ∈ l, ∀ b ∈ l, P a → P b → a = b) :
    (l.filter (P ·) = [] ∧ ∀ a ∈ l, ¬P a) ∨ ∃ a ∈ l, P a ∧ l.filter (P ·) = [a] := by
  by_cases found : ∃ a ∈ l, P a
  · obtain ⟨a, member, holds⟩ := found
    refine .inr ⟨a, member, holds, ?_⟩
    refine List.perm_singleton.1
      ((List.perm_ext_iff_of_nodup (nodup.filter _) (List.nodup_singleton a)).2 fun b => ?_)
    simp only [List.mem_filter, decide_eq_true_eq, List.mem_singleton]
    exact ⟨fun ⟨other, holds'⟩ => unique b other a member holds' holds, fun same =>
      same ▸ ⟨member, holds⟩⟩
  · push Not at found
    exact .inl ⟨List.filter_eq_nil_iff.2 (by simpa using found), found⟩

namespace Consistent
variable {t : Tables} (consistent : t.Consistent)
include consistent

theorem account_unique {a b : Account} (left : a ∈ t.accounts) (right : b ∈ t.accounts)
    (same : a.accountId = b.accountId) : a = b :=
  List.inj_on_of_nodup_map consistent.accountIds left right same

theorem transaction_unique {a b : Transaction} (left : a ∈ t.transactions) (right : b ∈ t.transactions)
    (same : a.transactionId = b.transactionId) : a = b :=
  List.inj_on_of_nodup_map consistent.transactionIds left right same

theorem key_unique {a b : Transaction} {key : String} (left : a ∈ t.transactions) (right : b ∈ t.transactions)
    (keyed : a.idempotencyKey = some key) (keyed' : b.idempotencyKey = some key) : a = b := by
  have unique := consistent.idempotencyKeys
  rw [keys, List.Nodup, List.pairwise_filterMap] at unique
  have : Std.Symm fun a b : Transaction =>
      ∀ key, a.idempotencyKey = some key → ∀ key', b.idempotencyKey = some key' → key ≠ key' :=
    ⟨fun _ _ apart key keyed key' keyed' => (apart key' keyed' key keyed).symm⟩
  by_contra different
  exact unique.forall left right different key keyed key keyed' rfl

theorem entriesOf_eq_nil {transactionId : UUID} (absent : transactionId ∉ t.transactions.map (·.transactionId)) :
    t.entriesOf transactionId = [] := by
  refine List.filter_eq_nil_iff.2 fun entry member => ?_
  simp only [decide_eq_true_eq]
  rintro rfl
  exact absent (consistent.transactionOf entry member)

theorem account_cases (x : UUID) :
    (t.accounts.filter (·.accountId = x) = [] ∧ x ∉ t.accounts.map (·.accountId)) ∨
      ∃ account ∈ t.accounts, account.accountId = x ∧ t.accounts.filter (·.accountId = x) = [account] := by
  have unique : ∀ a ∈ t.accounts, ∀ b ∈ t.accounts, a.accountId = x → b.accountId = x → a = b :=
    fun a left b right same same' => consistent.account_unique left right (same.trans same'.symm)
  refine (filter_unique (List.Nodup.of_map _ consistent.accountIds) unique).imp (fun none => ⟨none.1, ?_⟩) id
  simpa using none.2

theorem account_filter {account : Account} (member : account ∈ t.accounts) :
    t.accounts.filter (·.accountId = account.accountId) = [account] := by
  rcases consistent.account_cases account.accountId with ⟨_, absent⟩ | ⟨found, listed, same, one⟩
  · exact absurd (List.mem_map_of_mem member) absent
  · rwa [consistent.account_unique listed member same] at one

theorem transaction_filter {transaction : Transaction} (member : transaction ∈ t.transactions) :
    t.transactions.filter (·.transactionId = transaction.transactionId) = [transaction] := by
  have unique : ∀ a ∈ t.transactions, ∀ b ∈ t.transactions, a.transactionId = transaction.transactionId →
      b.transactionId = transaction.transactionId → a = b :=
    fun a left b right same same' => consistent.transaction_unique left right (same.trans same'.symm)
  rcases filter_unique (List.Nodup.of_map _ consistent.transactionIds) unique with
    ⟨_, absent⟩ | ⟨found, listed, same, one⟩
  · exact absurd rfl (absent transaction member)
  · rwa [consistent.transaction_unique listed member same] at one

theorem pair_cases {a b : UUID} (different : a ≠ b) {rows : List Account}
    (selected : rows.Perm (t.accounts.filter fun account => account.accountId = a ∨ account.accountId = b)) :
    (rows.length ≠ 2 ∧ ∃ x, (x = a ∨ x = b) ∧ x ∉ t.accounts.map (·.accountId)) ∨
      rows.length = 2 ∧ a ∈ rows.map (·.accountId) ∧ b ∈ rows.map (·.accountId) := by
  have ids := selected.map (·.accountId)
  have nodup : (rows.map (·.accountId)).Nodup :=
    ids.nodup_iff.2 (consistent.accountIds.sublist (List.filter_sublist.map _))
  have members : ∀ x, x ∈ rows.map (·.accountId) ↔ (x = a ∨ x = b) ∧
      x ∈ t.accounts.map (·.accountId) := by
    intro x
    rw [ids.mem_iff]
    simp only [List.mem_map, List.mem_filter, decide_eq_true_eq]
    constructor
    · rintro ⟨account, ⟨member, party⟩, rfl⟩
      exact ⟨party, account, member, rfl⟩
    · rintro ⟨party, account, member, rfl⟩
      exact ⟨account, ⟨member, party⟩, rfl⟩
  by_cases both : a ∈ t.accounts.map (·.accountId) ∧ b ∈ t.accounts.map (·.accountId)
  · have pair : (rows.map (·.accountId)).Perm [a, b] := by
      refine (List.perm_ext_iff_of_nodup nodup (by simpa using different)).2 fun x => ?_
      rw [members]
      simp only [List.mem_cons, List.not_mem_nil, or_false, and_iff_left_iff_imp]
      rintro (rfl | rfl)
      · exact both.1
      · exact both.2
    exact .inr ⟨by simpa using pair.length_eq, pair.mem_iff.2 (by simp), pair.mem_iff.2 (by simp)⟩
  · refine .inl ⟨fun two => both ?_, ?_⟩
    · have pair : (rows.map (·.accountId)).Perm [a, b] :=
        (nodup.subperm fun x member => by simpa using ((members x).1 member).1).perm_of_length_le (by simp [two])
      exact ⟨((members a).1 (pair.mem_iff.2 (by simp))).2, ((members b).1 (pair.mem_iff.2 (by simp))).2⟩
    · rcases not_and_or.1 both with missing | missing
      · exact ⟨a, .inl rfl, missing⟩
      · exact ⟨b, .inr rfl, missing⟩

theorem key_cases (key : String) :
    (t.transactions.filter (·.idempotencyKey = some key) = [] ∧ key ∉ t.keys) ∨
      ∃ transaction ∈ t.transactions, transaction.idempotencyKey = some key ∧
        t.transactions.filter (·.idempotencyKey = some key) = [transaction] := by
  have unique : ∀ a ∈ t.transactions, ∀ b ∈ t.transactions, a.idempotencyKey = some key →
      b.idempotencyKey = some key → a = b :=
    fun a left b right keyed keyed' => consistent.key_unique left right keyed keyed'
  refine (filter_unique (List.Nodup.of_map _ consistent.transactionIds) unique).imp (fun none => ⟨none.1, ?_⟩) id
  simpa [keys] using none.2

end Consistent
end Tables
end LedgerFlow.Ledger
