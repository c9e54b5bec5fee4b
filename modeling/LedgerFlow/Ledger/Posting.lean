import LedgerFlow.Ledger.Service

/-! The ledger one commit at a time: what a call may add to the tables, and what every such step keeps.
The interleaved service is shown to commit nothing else. -/

namespace LedgerFlow.Ledger
open Accounts Outbox

/-- One transaction with its two entries, `debit` on the payer and `credit` on the payee, and its event. -/
structure Posting where
  transaction : Transaction
  payer : UUID
  payee : UUID
  debit : Numeric 20 2
  credit : Numeric 20 2
  event : OutboxEvent

def Posting.rows (P : Posting) : Tables where
  transactions := [P.transaction]
  entries := [⟨P.transaction.transactionId, P.payer, P.debit⟩,
      ⟨P.transaction.transactionId, P.payee, P.credit⟩]
  events := [P.event]

/-- What the amount column keeps of the negated amount and of the amount. -/
structure Stores (env : Deployment) (amount : Decimal) (debit credit : Numeric 20 2) : Prop where
  debited : ∃ negated, amount.neg = some negated ∧ Numeric.cast 20 2 negated = some debit
  credited : Numeric.cast 20 2 amount = some credit
  accepted : env.amountNonzero → debit.unscaled ≠ 0 ∧ credit.unscaled ≠ 0

/-- A sum read under a row lock still covers what it covered: nobody else takes from an
account other than the system account. -/
def Tables.Funded (db : Tables) (accountId : UUID) (total : ℤ) : Prop :=
  db.IsSystemCash accountId ∨ total ≤ db.balance accountId

/-- The postings of a request on the committed tables `db`. -/
inductive PostedBy (env : Deployment) (db : Tables) : Request → Posting → Prop where
  | deposit (account system : Account) (amount : Amount) (transaction : Transaction)
      (debit credit : Numeric 20 2) (eventId : UUID) (eventAt : Timestamp)
      (found : account ∈ db.accounts) (active : account.status = .active)
      (cash : system ∈ db.accounts) (isCash : system.isSystemCash)
      (typed : transaction.transactionType = .deposit) (keyless : transaction.idempotencyKey = none)
      (stored : Stores env amount.value debit credit) :
      PostedBy env db (.createDeposit account.accountId amount)
        ⟨transaction, system.accountId, account.accountId, debit, credit,
          createOutboxEvent eventId transaction.transactionId "DEPOSIT_POSTED"
            (accountPayload transaction account amount.value) eventAt⟩
  | withdrawal (account system : Account) (amount : Amount) (transaction : Transaction)
      (debit credit : Numeric 20 2) (eventId : UUID) (eventAt : Timestamp) (total : ℤ)
      (found : account ∈ db.accounts) (active : account.status = .active)
      (cash : system ∈ db.accounts) (isCash : system.isSystemCash)
      (typed : transaction.transactionType = .withdrawal) (keyless : transaction.idempotencyKey = none)
      (stored : Stores env amount.value debit credit)
      (balance : db.Funded account.accountId total) (covered : amount.value.toRat ≤ total / 100) :
      PostedBy env db (.createWithdrawal account.accountId amount)
        ⟨transaction, account.accountId, system.accountId, debit, credit,
          createOutboxEvent eventId transaction.transactionId "WITHDRAWAL_POSTED"
            (accountPayload transaction account amount.value) eventAt⟩
  | transfer (source destination : Account) (amount : Amount) (key : String) (transaction : Transaction)
      (debit credit : Numeric 20 2) (eventId : UUID) (eventAt : Timestamp) (total : ℤ)
      (found : source ∈ db.accounts) (found' : destination ∈ db.accounts)
      (different : source.accountId ≠ destination.accountId)
      (active : source.status = .active) (active' : destination.status = .active)
      (currencies : source.currency = destination.currency) (fits : (varchar 255 key).isSome)
      (typed : transaction.transactionType = .transfer) (keyed : transaction.idempotencyKey = varchar 255 key)
      (hashed : transaction.requestHash =
        some (generateTransferHash env source.accountId destination.accountId amount.value))
      (stored : Stores env amount.value debit credit)
      (balance : db.Funded source.accountId total) (covered : amount.value.toRat ≤ total / 100) :
      PostedBy env db (.createTransfer source.accountId destination.accountId amount key)
        ⟨transaction, source.accountId, destination.accountId, debit, credit,
          createOutboxEvent eventId transaction.transactionId "TRANSFER_POSTED"
            (transferPayload transaction source.accountId destination.accountId amount.value
              source.currency) eventAt⟩

/-- What one database transaction of a request may add to the committed tables `db`. -/
inductive Commits (env : Deployment) (db : Tables) (request : Request) : Tables → Prop where
  | opens (created : CreateAccountRequest) (account : Account) (same : request = .createAccount created)
      (owner : account.ownerName = created.ownerName)
      (typed : AccountType.ofStr created.accountType = some account.accountType)
      (currency : varchar 3 (env.upper created.currency) = some account.currency) (active : account.status = .active)
      (fresh : account.accountId ∉ db.ids) : Commits env db request { accounts := [account] }
  | posts (P : Posting) (posted : PostedBy env db request P) (fresh : P.transaction.transactionId ∉ db.ids)
      (freshEvent : P.event.eventId ∉ db.ids)
      (freshKey : ∀ key, P.transaction.idempotencyKey = some key → key ∉ db.keys) :
      Commits env db request P.rows

/-- The ledger as one program: the database transaction of an admitted call takes effect as a whole. -/
def Takes (env : Deployment) (permit : Request → Prop) (db db' : Tables) : Prop :=
  ∃ request rows, permit request ∧ Commits env db request rows ∧ db' = db ++ rows

variable {env : Deployment} {db : Tables} {request : Request} {P : Posting}

theorem PostedBy.amount (posted : PostedBy env db request P) :
    ∃ amount, request.amount = some amount ∧ Stores env amount.value P.debit P.credit := by
  cases posted with
  | deposit _ _ amount _ _ _ _ _ _ _ _ _ _ _ stored => exact ⟨amount, rfl, stored⟩
  | withdrawal _ _ amount _ _ _ _ _ _ _ _ _ _ _ _ stored => exact ⟨amount, rfl, stored⟩
  | transfer _ _ amount _ _ _ _ _ _ _ _ _ _ _ _ _ _ _ _ _ stored => exact ⟨amount, rfl, stored⟩

theorem PostedBy.credit_nonneg (posted : PostedBy env db request P) : 0 ≤ P.credit.unscaled := by
  obtain ⟨amount, _, stored⟩ := posted.amount
  exact Numeric.cast_pos_nonneg amount.sign stored.credited

theorem PostedBy.parties (posted : PostedBy env db request P) :
    P.payer ∈ db.accounts.map (·.accountId) ∧ P.payee ∈ db.accounts.map (·.accountId) := by
  cases posted with
  | deposit account system _ _ _ _ _ _ found _ cash =>
    exact ⟨List.mem_map_of_mem cash, List.mem_map_of_mem found⟩
  | withdrawal account system _ _ _ _ _ _ _ found _ cash =>
    exact ⟨List.mem_map_of_mem found, List.mem_map_of_mem cash⟩
  | transfer source destination _ _ _ _ _ _ _ _ found found' =>
    exact ⟨List.mem_map_of_mem found, List.mem_map_of_mem found'⟩

theorem PostedBy.fits (posted : PostedBy env db request P) {key : String}
    (carried : P.transaction.idempotencyKey = some key) : varchar 255 key = some key := by
  cases posted with
  | deposit _ _ _ _ _ _ _ _ _ _ _ _ _ keyless => cases keyless.symm.trans carried
  | withdrawal _ _ _ _ _ _ _ _ _ _ _ _ _ _ keyless => cases keyless.symm.trans carried
  | transfer _ _ _ _ _ _ _ _ _ _ _ _ _ _ _ _ _ _ keyed => exact varchar_varchar (keyed.symm.trans carried)

theorem Stores.debit_le {amount : Amount} {debit credit : Numeric 20 2} {total : ℤ}
    (stored : Stores env amount.value debit credit) (covered : amount.value.toRat ≤ total / 100) :
    -debit.unscaled ≤ total := by
  obtain ⟨negated, negation, debited⟩ := stored.debited
  refine Numeric.cast_neg_le_balance amount.sign amount.nonzero (by decide) (by decide) negation debited ?_
  rw [Decimal.toRat, amount.sign] at covered
  norm_num at covered ⊢
  exact covered

theorem PostedBy.debit_le (posted : PostedBy env db request P) :
    db.IsSystemCash P.payer ∨ -P.debit.unscaled ≤ db.balance P.payer := by
  cases posted with
  | deposit _ system _ _ _ _ _ _ _ _ cash isCash => exact .inl ⟨system, cash, rfl, isCash⟩
  | withdrawal _ _ _ _ _ _ _ _ _ _ _ _ _ _ _ stored balance covered =>
    exact balance.imp id fun funded => (stored.debit_le covered).trans funded
  | transfer _ _ _ _ _ _ _ _ _ _ _ _ _ _ _ _ _ _ _ _ stored balance covered =>
    exact balance.imp id fun funded => (stored.debit_le covered).trans funded

@[simp] theorem Posting.balance_rows (x : UUID) :
    P.rows.balance x = (if P.payer = x then P.debit.unscaled else 0) +
    (if P.payee = x then P.credit.unscaled else 0) := by
  simp only [Tables.balance, Tables.amounts, Posting.rows, List.filter_cons, decide_eq_true_eq, List.filter_nil]
  split_ifs <;> simp

theorem Posting.entriesOf_rows (transactionId : UUID) : P.rows.entriesOf transactionId =
    if P.transaction.transactionId = transactionId then P.rows.entries else [] := by
  simp only [Tables.entriesOf, Posting.rows, List.filter_cons, decide_eq_true_eq, List.filter_nil]
  split_ifs <;> rfl

theorem Tables.not_mem_transactions {db : Tables} {value : UUID} (fresh : value ∉ db.ids) :
    value ∉ db.transactions.map (·.transactionId) :=
  fun member => fresh (by simp only [Tables.ids, List.mem_append]; exact .inl (.inr member))

theorem Tables.Consistent.entriesOf_posting {db : Tables} (consistent : db.Consistent)
    (fresh : P.transaction.transactionId ∉ db.ids) :
    (db ++ P.rows).entriesOf P.transaction.transactionId = P.rows.entries := by
  rw [Tables.entriesOf_append, consistent.entriesOf_eq_nil (Tables.not_mem_transactions fresh),
    Posting.entriesOf_rows, if_pos rfl]
  rfl

theorem nodup_snoc {α : Type} {l : List α} {a : α} (nodup : l.Nodup) (apart : a ∉ l) : (l ++ [a]).Nodup := by
  simpa using nodup.concat apart

namespace Commits
variable {rows : Tables}

theorem no_account (commits : Commits env db request rows) (other : ∀ created, request ≠ .createAccount created) :
    rows.accounts = [] := by
  cases commits with
  | opens created _ same => exact absurd same (other created)
  | posts => rfl

theorem entriesOf (commits : Commits env db request rows) {transaction : Transaction}
    (member : transaction ∈ db.transactions) :
    (db ++ rows).entriesOf transaction.transactionId = db.entriesOf transaction.transactionId := by
  cases commits with
  | opens => simp [Tables.entriesOf]
  | posts P posted fresh =>
    have other : P.transaction.transactionId ≠ transaction.transactionId :=
      fun same => Tables.not_mem_transactions fresh (same ▸ List.mem_map_of_mem member)
    rw [Tables.entriesOf_append, Posting.entriesOf_rows, if_neg other, List.append_nil]

theorem consistent (commits : Commits env db request rows) (before : db.Consistent) : (db ++ rows).Consistent := by
  cases commits with
  | opens created account same owner typed currency active fresh =>
    refine ⟨?_, by simpa using before.transactionIds, by simpa using before.eventIds,
      by simpa [Tables.keys] using before.idempotencyKeys,
      by simpa [Tables.keys] using before.fits, fun entry member => ?_, fun entry member => ?_⟩
    · rw [Tables.append_accounts, List.map_append]
      exact nodup_snoc before.accountIds fun member => fresh (by simp [Tables.ids, member])
    · simpa using before.transactionOf entry (by simpa using member)
    · exact List.map_append ▸ List.mem_append_left _ (before.accountOf entry (by simpa using member))
  | posts P posted fresh freshEvent freshKey =>
    refine ⟨by simpa [Posting.rows] using before.accountIds, ?_, ?_, ?_, fun key member => ?_,
      fun entry member => ?_, fun entry member => ?_⟩
    · rw [Tables.append_transactions, List.map_append]
      exact nodup_snoc before.transactionIds fun member => fresh (by simp [Tables.ids, member])
    · rw [Tables.append_events, List.map_append]
      exact nodup_snoc before.eventIds fun member => freshEvent (by simp [Tables.ids, member])
    · rw [Tables.keys_append, List.nodup_append]
      refine ⟨before.idempotencyKeys, ?_, ?_⟩
      · cases keyed : P.transaction.idempotencyKey <;> simp [Tables.keys, Posting.rows, keyed]
      · rintro key old _ new rfl
        exact freshKey key (by simpa [Tables.keys, Posting.rows] using new) old
    · rw [Tables.keys_append, List.mem_append] at member
      exact member.elim (before.fits key) fun new => posted.fits (by simpa [Tables.keys, Posting.rows] using new)
    · rcases List.mem_append.1 member with old | new
      · exact List.map_append ▸ List.mem_append_left _ (before.transactionOf entry old)
      · refine List.map_append ▸ List.mem_append_right _ ?_
        simp only [Posting.rows, List.mem_cons, List.not_mem_nil, or_false] at new
        rcases new with rfl | rfl <;> simp [Posting.rows]
    · have parties := posted.parties
      rcases List.mem_append.1 member with old | new
      · exact List.map_append ▸ List.mem_append_left _ (before.accountOf entry old)
      · refine List.map_append ▸ List.mem_append_left _ ?_
        simp only [Posting.rows, List.mem_cons, List.not_mem_nil, or_false] at new
        rcases new with rfl | rfl
        · exact parties.1
        · exact parties.2

theorem balance_nonneg (commits : Commits env db request rows) {x : UUID} (other : ¬(db ++ rows).IsSystemCash x)
    (before : 0 ≤ db.balance x) : 0 ≤ (db ++ rows).balance x := by
  cases commits with
  | opens created account same owner typed currency active fresh =>
    simpa [Tables.balance, Tables.amounts] using before
  | posts P posted fresh freshEvent freshKey =>
    have credit := posted.credit_nonneg
    have debit : P.payer = x → -P.debit.unscaled ≤ db.balance x := by
      rintro rfl
      exact posted.debit_le.resolve_left fun cash => other cash.append
    simp only [Tables.balance_append, Posting.balance_rows]
    split_ifs with payer payee payee
    · linarith [debit payer]
    · linarith [debit payer]
    · linarith
    · linarith

end Commits

theorem Takes.induction {permit : Request → Prop} {I : Tables → Prop}
    (step : ∀ db request rows, permit request → Commits env db request rows → db.Consistent →
      I db → I (db ++ rows))
    {db db' : Tables} (steps : Relation.ReflTransGen (Takes env permit) db db') (consistent : db.Consistent)
    (start : I db) : db'.Consistent ∧ I db' := by
  induction steps with
  | refl => exact ⟨consistent, start⟩
  | tail _ takes ih =>
    obtain ⟨request, rows, admitted, commits, rfl⟩ := takes
    exact ⟨commits.consistent ih.1, step _ request rows admitted commits ih.1 ih.2⟩

end LedgerFlow.Ledger
