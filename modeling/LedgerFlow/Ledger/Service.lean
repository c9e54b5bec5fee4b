import LedgerFlow.Ledger.Database

/-! The ledger service: `create_deposit`, `create_withdrawal`, `create_transfer`, `get_balance` and
`get_balance_at`, statement by statement, and `create_account`. -/

namespace LedgerFlow.Ledger
open Accounts Outbox Concurrency

def checked {α : Type} : Except PyError α → Code α
  | .ok value => .ret value
  | .error error => .raise error

def scalarOneOrNone {α : Type} : List α → Code (Option α)
  | [] => .ret none
  | [row] => .ret (some row)
  | _ => .raise .multipleResultsFound

def selectAccount (accountId : UUID) : Code (List Account) := .call (.selectAccount accountId) .ret
def selectSystemCash : Code (List Account) := .call .selectSystemCash .ret
def selectTransaction (key : String) : Code (List Transaction) := .call (.selectTransaction key) .ret
def sumEntries (accountId : UUID) : Code Decimal := .call (.sumEntries accountId) .ret
def sumEntriesUntil (accountId : UUID) (timestamp : Timestamp) : Code Decimal :=
  .call (.sumEntriesUntil accountId timestamp) .ret
def uuid4 : Code UUID := .call .uuid4 .ret
def now : Code Timestamp := .call .now .ret
def insertAccount (account : Account) : Code Unit := .call (.insertAccount account) checked
def insertTransaction (transaction : Transaction) : Code Unit := .call (.insertTransaction transaction) checked
def insertEntry (transactionId accountId : UUID) (amount : Decimal) : Code Unit :=
  .call (.insertEntry transactionId accountId amount) checked
def insertEvent (event : OutboxEvent) : Code Unit := .call (.insertEvent event) .ret
def commit : Code Unit := .call .commit .ret
def rollback : Code Unit := .call .rollback .ret

/-- `db.refresh(transaction)`: the row as it is stored, read by its primary key. Rows are never deleted. -/
def refresh (transaction : Transaction) : Code Transaction :=
  .call (.refreshTransaction transaction.transactionId) fun rows => .ret (rows.headD transaction)

def lockAll : List Account → Code Unit
  | [] => .ret ()
  | account :: rest => .call (.lockAccount account.accountId) fun _ => lockAll rest

def selectAccountForUpdate (accountId : UUID) : Code (List Account) := do
  let rows ← selectAccount accountId
  lockAll rows
  .ret rows

def selectAccountsForUpdate (accountIds : List UUID) : Code (List Account) := do
  let rows ← .call (.selectAccountsIn accountIds) .ret
  lockAll rows
  .ret rows

def decimalOf (value : Decimal) : Code Decimal :=
  match Decimal.ofStr value.str with
  | some (.finite d) => .ret d
  | _ => .raise .invalidOperation

theorem decimalOf_eq (d : Decimal) : decimalOf d = .ret d := by
  simp [decimalOf, Decimal.ofStr_str]

def beginNested {α : Type} (body : Code α) : Code α := do
  .call .savepoint .ret
  let value ← body.attempt fun error => .call .rollbackToSavepoint fun _ => .raise error
  .call .releaseSavepoint .ret
  .ret value

def balanceCacheKey (accountId : UUID) : String := "account:" ++ accountId.str ++ ":balance"

/-- The cached text as a `Decimal`; the cache holds no text but what `set_cached_balance` wrote. -/
def getCachedBalance (accountId : UUID) : Code (Option Decimal) :=
  .call (.redisGet (balanceCacheKey accountId)) fun
    | .error error => .raise error
    | .ok none => .ret none
    | .ok (some value) =>
      match Decimal.ofStr value with
      | some (.finite d) => .ret (some d)
      | _ => .raise .invalidOperation

def setCachedBalance (accountId : UUID) (balance : Decimal) : Code Unit :=
  .call (.redisSet (balanceCacheKey accountId) balance.str) checked

def invalidateBalance (accountId : UUID) : Code Unit := .call (.redisDelete (balanceCacheKey accountId)) checked

/-- `try: .. except Exception: logger.exception(..)`. -/
def bestEffort (body : Code Unit) : Code Unit := body.attempt fun _ => .ret ()

variable (env : Deployment)

def generateTransferHash (fromAccountId toAccountId : UUID) (amount : Decimal) : String :=
  env.sha256 (fromAccountId.str ++ ":" ++ toAccountId.str ++ ":" ++ amount.str)

/-- The flush of a new transaction, its identifier and time stamp filled in just before. -/
def flushTransaction (transactionType : TransactionType) (reference : String)
    (idempotencyKey requestHash : Option String) : Code Transaction := do
  let transactionId ← uuid4
  let createdAt ← now
  let transaction : Transaction := {
    transactionId, transactionType, status := .posted, reference := some reference,
    idempotencyKey, requestHash, createdAt }
  insertTransaction transaction
  .ret transaction

def flushOutboxEvent (aggregateId : UUID) (eventType : String) (payload : Json) : Code Unit := do
  let eventId ← uuid4
  let createdAt ← now
  insertEvent (createOutboxEvent eventId aggregateId eventType payload createdAt)

def accountPayload (transaction : Transaction) (account : Account) (amount : Decimal) : Json :=
  .obj [("transaction_id", .str transaction.transactionId.str), ("account_id", .str account.accountId.str),
    ("amount", .str amount.str), ("currency", .str account.currency)]

def createDeposit (accountId : UUID) (amount : Decimal) : Code (Transaction × Account) := do
  let rows ← selectAccount accountId
  match ← scalarOneOrNone rows with
  | none => .raise (.valueError "Account not found")
  | some account =>
    if account.status ≠ .active then .raise (.valueError "Account is not active") else
    let rows ← selectSystemCash
    match ← scalarOneOrNone rows with
    | none => .raise (.valueError "SYSTEM_CASH account not found")
    | some systemAccount =>
      let transaction ← flushTransaction .deposit "Deposit" none none
      match amount.neg with
      | none => .raise .overflow
      | some debit =>
        -- SYSTEM_CASH loses money, the user receives it; the rows go out when commit flushes them
        insertEntry transaction.transactionId systemAccount.accountId debit
        insertEntry transaction.transactionId account.accountId amount
        flushOutboxEvent transaction.transactionId "DEPOSIT_POSTED" (accountPayload transaction account amount)
        commit
        let transaction ← refresh transaction
        bestEffort (invalidateBalance account.accountId)
        .ret (transaction, account)

def createWithdrawal (accountId : UUID) (amount : Decimal) : Code (Transaction × Account) := do
  let rows ← selectAccountForUpdate accountId
  match ← scalarOneOrNone rows with
  | none => .raise (.valueError "Account not found")
  | some account =>
    if account.status ≠ .active then .raise (.valueError "Account is not active") else
    let total ← sumEntries accountId
    let currentBalance ← decimalOf total
    if currentBalance < amount then .raise (.valueError "Insufficient funds") else
    let rows ← selectSystemCash
    match ← scalarOneOrNone rows with
    | none => .raise (.valueError "SYSTEM_CASH account not found")
    | some systemAccount =>
      let transaction ← flushTransaction .withdrawal "Withdrawal" none none
      match amount.neg with
      | none => .raise .overflow
      | some debit =>
        insertEntry transaction.transactionId account.accountId debit
        insertEntry transaction.transactionId systemAccount.accountId amount
        flushOutboxEvent transaction.transactionId "WITHDRAWAL_POSTED" (accountPayload transaction account amount)
        commit
        let transaction ← refresh transaction
        bestEffort (invalidateBalance account.accountId)
        .ret (transaction, account)

def transferPayload (transaction : Transaction) (fromAccountId toAccountId : UUID) (amount : Decimal)
    (currency : String) : Json :=
  .obj [("transaction_id", .str transaction.transactionId.str), ("from_account_id", .str fromAccountId.str),
    ("to_account_id", .str toAccountId.str), ("amount", .str amount.str), ("currency", .str currency)]

/-- An existing transaction answers a call whose request it was made for. -/
def replay (requestHash : String) (existing : Transaction) : Code Transaction :=
  if existing.requestHash ≠ some requestHash then
    .raise (.valueError "Idempotency key already used for a different request")
  else .ret existing

/-- Inside the savepoint: the transaction, its two entries and its event. -/
def postTransfer (fromAccountId toAccountId : UUID) (amount : Decimal)
    (idempotencyKey requestHash currency : String) : Code Transaction := do
  let transaction ← flushTransaction .transfer "Transfer" (some idempotencyKey) (some requestHash)
  match amount.neg with
  | none => .raise .overflow
  | some debit =>
    insertEntry transaction.transactionId fromAccountId debit
    insertEntry transaction.transactionId toAccountId amount
    flushOutboxEvent transaction.transactionId "TRANSFER_POSTED"
      (transferPayload transaction fromAccountId toAccountId amount currency)
    .ret transaction

/-- Another request won the idempotency race. -/
def recoverTransfer (idempotencyKey requestHash : String) : PyError → Code Transaction
  | .integrityError => do
    rollback
    let rows ← selectTransaction idempotencyKey
    match ← scalarOneOrNone rows with
    | none => .raise .integrityError
    | some existing => replay requestHash existing
  | error => .raise error

def createTransfer (fromAccountId toAccountId : UUID) (amount : Decimal) (idempotencyKey : String) :
    Code Transaction := do
  let requestHash := generateTransferHash env fromAccountId toAccountId amount
  let rows ← selectTransaction idempotencyKey
  match ← scalarOneOrNone rows with
  | some existing => replay requestHash existing
  | none =>
    if fromAccountId = toAccountId then
      .raise (.valueError "Source and destination accounts must be different") else
    let accounts ← selectAccountsForUpdate ([fromAccountId, toAccountId].insertionSort (· ≤ ·))
    if accounts.length ≠ 2 then .raise (.valueError "One or both accounts not found") else
    match accounts.find? (·.accountId = fromAccountId), accounts.find? (·.accountId = toAccountId) with
    | some source, some destination =>
      if source.status ≠ .active then .raise (.valueError "Source account is not active") else
      if destination.status ≠ .active then .raise (.valueError "Destination account is not active") else
      if source.currency ≠ destination.currency then .raise (.valueError "Currency mismatch") else
      let total ← sumEntries fromAccountId
      let sourceBalance ← decimalOf total
      if sourceBalance < amount then .raise (.valueError "Insufficient funds") else
      Prog.attempt (do
        let transaction ← beginNested
          (postTransfer fromAccountId toAccountId amount idempotencyKey requestHash source.currency)
        commit
        let transaction ← refresh transaction
        bestEffort do
          invalidateBalance fromAccountId
          invalidateBalance toAccountId
        .ret transaction) (recoverTransfer idempotencyKey requestHash)
    | _, _ => .raise (.keyError "account_map")

/-- The second half of `get_balance`: the balance from PostgreSQL, and its way into the cache. -/
def computeBalance (accountId : UUID) : Code Decimal := do
  let rows ← selectAccount accountId
  match ← scalarOneOrNone rows with
  | none => .raise (.valueError "Account not found")
  | some _ =>
    let total ← sumEntries accountId
    let balance ← decimalOf total
    bestEffort (setCachedBalance accountId balance)
    .ret balance

def getBalance (accountId : UUID) : Code Decimal := do
  let cached ← (getCachedBalance accountId).attempt fun _ => .ret none
  match cached with
  | some balance => .ret balance
  | none => computeBalance accountId

def getBalanceAt (accountId : UUID) (timestamp : Timestamp) : Code Decimal := do
  let rows ← selectAccount accountId
  match ← scalarOneOrNone rows with
  | none => .raise (.valueError "Account not found")
  | some _ =>
    let total ← sumEntriesUntil accountId timestamp
    decimalOf total

def createAccount (request : CreateAccountRequest) : Code Account :=
  match AccountType.ofStr request.accountType with
  | none => .raise (.valueError (pyRepr env.isprintable request.accountType ++ " is not a valid AccountType"))
  | some accountType => do
    let accountId ← uuid4
    let account : Account := {
      accountId, ownerName := request.ownerName, accountType, currency := env.upper request.currency,
        status := .active }
    insertAccount account
    commit
    .call (.refreshAccount accountId) fun rows => .ret (rows.headD account)

inductive Request where
  | createAccount (request : CreateAccountRequest)
  | createDeposit (accountId : UUID) (amount : Amount)
  | createWithdrawal (accountId : UUID) (amount : Amount)
  | createTransfer (fromAccountId toAccountId : UUID) (amount : Amount) (idempotencyKey : String)
  | getBalance (accountId : UUID)
  | getBalanceAt (accountId : UUID) (timestamp : Timestamp)
  deriving DecidableEq

def Request.amount : Request → Option Amount
  | .createDeposit _ amount => some amount
  | .createWithdrawal _ amount => some amount
  | .createTransfer _ _ amount _ => some amount
  | _ => none

inductive Value where
  | account (account : Account)
  | posted (transaction : Transaction) (account : Account)
  | transfer (transaction : Transaction)
  | balance (balance : Decimal)

def body : Request → Code Value
  | .createAccount request => do
    let account ← Ledger.createAccount env request
    .ret (.account account)
  | .createDeposit accountId amount => do
    let (transaction, account) ← Ledger.createDeposit accountId amount.value
    .ret (.posted transaction account)
  | .createWithdrawal accountId amount => do
    let (transaction, account) ← Ledger.createWithdrawal accountId amount.value
    .ret (.posted transaction account)
  | .createTransfer fromAccountId toAccountId amount idempotencyKey => do
    let transaction ← Ledger.createTransfer env fromAccountId toAccountId amount.value idempotencyKey
    .ret (.transfer transaction)
  | .getBalance accountId => do
    let balance ← Ledger.getBalance accountId
    .ret (.balance balance)
  | .getBalanceAt accountId timestamp => do
    let balance ← Ledger.getBalanceAt accountId timestamp
    .ret (.balance balance)

/-- Any number of calls against one database, one cache and one clock that never goes back. -/
def machine : Machine language where
  World := World
  Choice := Choice
  Tick := ℕ
  Request := Request
  Value := Value
  body := body env
  exec := exec env
  close := World.finish
  tick elapsed w := some { w with clock := w.clock + elapsed }
  failure := .failure

end LedgerFlow.Ledger
