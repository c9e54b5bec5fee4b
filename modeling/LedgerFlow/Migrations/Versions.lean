import LedgerFlow.Migrations.Schema

/-! The migrations of the service, and the tables of its models. -/

namespace LedgerFlow.Migrations

/-- An `sa.Enum` column creates its type before the table. -/
def createAccountsTable : Migration where
  revision := "b4c22890446c"
  downRevision := none
  upgrade := [
    .createEnum "accounttype" ["SAVINGS", "CURRENT", "SYSTEM"],
    .createEnum "accountstatus" ["ACTIVE", "FROZEN", "CLOSED"],
    .createTable "accounts"
      [⟨"account_id", .uuid, false⟩, ⟨"owner_name", .string 100, false⟩,
        ⟨"account_type", .enum "accounttype", false⟩,
        ⟨"currency", .string 3, false⟩, ⟨"status", .enum "accountstatus", false⟩,
          ⟨"created_at", .dateTime, false⟩]
      [(none, .primaryKey ["account_id"])]]

def createLedgerTables : Migration where
  revision := "6b34a7126003"
  downRevision := some "b4c22890446c"
  upgrade := [
    .createEnum "transactiontype" ["DEPOSIT", "WITHDRAWAL", "TRANSFER"],
    .createEnum "transactionstatus" ["PENDING", "POSTED", "FAILED"],
    .createTable "transactions"
      [⟨"transaction_id", .uuid, false⟩, ⟨"transaction_type", .enum "transactiontype", false⟩,
        ⟨"status", .enum "transactionstatus", false⟩, ⟨"reference", .string 255, true⟩,
          ⟨"created_at", .dateTime, false⟩]
      [(none, .primaryKey ["transaction_id"])],
    .createTable "ledger_entries"
      [⟨"entry_id", .uuid, false⟩, ⟨"transaction_id", .uuid, false⟩, ⟨"account_id", .uuid, false⟩,
        ⟨"amount", .numeric 20 2, false⟩, ⟨"created_at", .dateTime, false⟩]
      [(none, .foreignKey "account_id" "accounts" "account_id"),
        (none, .foreignKey "transaction_id" "transactions" "transaction_id"), (none, .primaryKey ["entry_id"])]]

def addTransactionIdempotencyKey : Migration where
  revision := "94c0a56afe8b"
  downRevision := some "6b34a7126003"
  upgrade := [
    .addColumn "transactions" ⟨"idempotency_key", .string 255, true⟩,
    .createUniqueConstraint (some "uq_transactions_idempotency_key") "transactions" ["idempotency_key"],
    .createUniqueConstraint none "transactions" ["idempotency_key"]]

def addTransactionIdempotencyKey' : Migration where
  revision := "aa0317464b7b"
  downRevision := some "94c0a56afe8b"
  upgrade := []

def addLedgerConstraintsIndexesAndRequestHash : Migration where
  revision := "b3416fdf73e4"
  downRevision := some "aa0317464b7b"
  upgrade := [
    .createIndex "ix_ledger_entries_account_created" "ledger_entries" ["account_id", "created_at"],
    .createIndex "ix_ledger_entries_account_id" "ledger_entries" ["account_id"],
    .createIndex "ix_ledger_entries_transaction_id" "ledger_entries" ["transaction_id"],
    .addColumn "transactions" ⟨"request_hash", .string 64, true⟩,
    .dropConstraint "transactions_idempotency_key_key" "transactions",
    .createIndex "ix_transactions_created_at" "transactions" ["created_at"]]

def createOutboxEvents : Migration where
  revision := "bf0ee840140a"
  downRevision := some "b3416fdf73e4"
  upgrade := [
    .createEnum "outboxstatus" ["PENDING", "PUBLISHED", "FAILED"],
    .createTable "outbox_events"
      [⟨"event_id", .uuid, false⟩, ⟨"aggregate_id", .uuid, false⟩, ⟨"event_type", .string 100, false⟩,
        ⟨"event_version", .integer, false⟩, ⟨"payload", .json, false⟩,
          ⟨"status", .enum "outboxstatus", false⟩,
        ⟨"retry_count", .integer, false⟩, ⟨"created_at", .dateTime, false⟩,
          ⟨"published_at", .dateTime, true⟩,
        ⟨"last_error", .string 1000, true⟩]
      [(none, .primaryKey ["event_id"])],
    .createIndex "ix_outbox_events_aggregate_id" "outbox_events" ["aggregate_id"],
    .createIndex "ix_outbox_events_status_created_at" "outbox_events" ["status", "created_at"]]

def addOutboxRetryScheduling : Migration where
  revision := "53a0a83bba2a"
  downRevision := some "bf0ee840140a"
  upgrade := [.addColumn "outbox_events" ⟨"next_retry_at", .dateTime, true⟩]

def addOutboxProcessingState : Migration where
  revision := "66431aafbfa9"
  downRevision := some "53a0a83bba2a"
  upgrade := [.addColumn "outbox_events" ⟨"claimed_at", .dateTime, true⟩]

def addProcessedEvents : Migration where
  revision := "f6cd8ac4160e"
  downRevision := some "66431aafbfa9"
  upgrade := [
    .createTable "processed_events"
      [⟨"event_id", .uuid, false⟩, ⟨"event_type", .string 100, false⟩, ⟨"processed_at", .dateTime, false⟩]
      [(none, .primaryKey ["event_id"])]]

def addAccountBalanceProjection : Migration where
  revision := "fd0dbd78a5a4"
  downRevision := some "f6cd8ac4160e"
  upgrade := [
    .createTable "account_balance_projections"
      [⟨"account_id", .uuid, false⟩, ⟨"balance", .numeric 18 2, false⟩, ⟨"updated_at", .dateTime, false⟩]
      [(none, .primaryKey ["account_id"])]]

def addProcessingStatusToOutboxEnum : Migration where
  revision := "599606e893fc"
  downRevision := some "fd0dbd78a5a4"
  upgrade := [.addEnumValue "outboxstatus" "PROCESSING"]

def versions : List Migration :=
  [addOutboxRetryScheduling, addProcessingStatusToOutboxEnum, addOutboxProcessingState, createLedgerTables,
    addTransactionIdempotencyKey, addTransactionIdempotencyKey', addLedgerConstraintsIndexesAndRequestHash,
    createAccountsTable, createOutboxEvents, addProcessedEvents, addAccountBalanceProjection]

theorem upgradeHead_isSome : (upgradeHead versions).isSome := by
  decide +kernel

def head : Schema := (upgradeHead versions).get upgradeHead_isSome

/-- `Base.metadata.create_all` with the models of the service. -/
def createAll : List Op := [
  .createEnum "accounttype" ["SAVINGS", "CURRENT", "SYSTEM"],
  .createEnum "accountstatus" ["ACTIVE", "FROZEN", "CLOSED"],
  .createTable "accounts"
    [⟨"account_id", .uuid, false⟩, ⟨"owner_name", .string 100, false⟩,
      ⟨"account_type", .enum "accounttype", false⟩,
      ⟨"currency", .string 3, false⟩, ⟨"status", .enum "accountstatus", false⟩,
        ⟨"created_at", .dateTime, false⟩]
    [(none, .primaryKey ["account_id"])],
  .createEnum "transactiontype" ["DEPOSIT", "WITHDRAWAL", "TRANSFER"],
  .createEnum "transactionstatus" ["PENDING", "POSTED", "FAILED"],
  .createTable "transactions"
    [⟨"transaction_id", .uuid, false⟩, ⟨"transaction_type", .enum "transactiontype", false⟩,
      ⟨"status", .enum "transactionstatus", false⟩, ⟨"reference", .string 255, true⟩,
      ⟨"idempotency_key", .string 255, true⟩, ⟨"request_hash", .string 64, true⟩,
        ⟨"created_at", .dateTime, false⟩]
    [(none, .primaryKey ["transaction_id"]), (some "uq_transactions_idempotency_key", .unique ["idempotency_key"])],
  .createIndex "ix_transactions_created_at" "transactions" ["created_at"],
  .createTable "ledger_entries"
    [⟨"entry_id", .uuid, false⟩, ⟨"transaction_id", .uuid, false⟩, ⟨"account_id", .uuid, false⟩,
      ⟨"amount", .numeric 20 2, false⟩, ⟨"created_at", .dateTime, false⟩]
    [(none, .primaryKey ["entry_id"]), (some "ck_ledger_entries_amount_nonzero", .check "amount" "amount <> 0"),
      (none, .foreignKey "transaction_id" "transactions" "transaction_id"),
      (none, .foreignKey "account_id" "accounts" "account_id")],
  .createIndex "ix_ledger_entries_account_id" "ledger_entries" ["account_id"],
  .createIndex "ix_ledger_entries_transaction_id" "ledger_entries" ["transaction_id"],
  .createIndex "ix_ledger_entries_account_created" "ledger_entries" ["account_id", "created_at"],
  .createEnum "outboxstatus" ["PENDING", "PROCESSING", "PUBLISHED", "FAILED"],
  .createTable "outbox_events"
    [⟨"event_id", .uuid, false⟩, ⟨"aggregate_id", .uuid, false⟩, ⟨"event_type", .string 100, false⟩,
      ⟨"event_version", .integer, false⟩, ⟨"payload", .json, false⟩,
        ⟨"status", .enum "outboxstatus", false⟩,
      ⟨"retry_count", .integer, false⟩, ⟨"next_retry_at", .dateTime, true⟩,
        ⟨"claimed_at", .dateTime, true⟩,
      ⟨"created_at", .dateTime, false⟩, ⟨"published_at", .dateTime, true⟩,
        ⟨"last_error", .string 1000, true⟩]
    [(none, .primaryKey ["event_id"])],
  .createIndex "ix_outbox_events_status_created_at" "outbox_events" ["status", "created_at"],
  .createIndex "ix_outbox_events_aggregate_id" "outbox_events" ["aggregate_id"],
  .createTable "processed_events"
    [⟨"event_id", .uuid, false⟩, ⟨"event_type", .string 100, false⟩, ⟨"processed_at", .dateTime, false⟩]
    [(none, .primaryKey ["event_id"])],
  .createTable "account_balance_projections"
    [⟨"account_id", .uuid, false⟩, ⟨"balance", .numeric 18 2, false⟩, ⟨"updated_at", .dateTime, false⟩]
    [(none, .primaryKey ["account_id"])]]

theorem createAll_isSome : (execute createAll {}).isSome := by
  decide +kernel

def models : Schema := (execute createAll {}).get createAll_isSome

theorem head_not_checks {table column sqltext : String} : ¬head.Has table (.check column sqltext) := by
  intro has
  obtain ⟨migration, listed, op, member, declares⟩ := declared_of_upgradeHead (Option.some_get _).symm has
  have none : ∀ migration ∈ versions, ∀ op ∈ migration.upgrade, ¬op.Checks := by
    decide +kernel
  exact none migration listed op member (op.checks_of_declares declares)

theorem head_references_accounts : head.Has "ledger_entries" (.foreignKey "account_id" "accounts" "account_id") := by
  decide +kernel

theorem models_check_amount : models.Has "ledger_entries" (.check "amount" "amount <> 0") := by
  decide +kernel

structure Table.Agrees (t u : Table) : Prop where
  name : t.name = u.name
  columns : t.columns.Perm u.columns
  constraints : t.constraints.Perm u.constraints
  indexes : t.indexes.Perm u.indexes

instance (t u : Table) : Decidable (t.Agrees u) :=
  decidable_of_iff (t.name = u.name ∧ t.columns.Perm u.columns ∧ t.constraints.Perm u.constraints ∧
    t.indexes.Perm u.indexes)
    ⟨fun ⟨name, columns, constraints, indexes⟩ => ⟨name, columns, constraints, indexes⟩,
      fun agrees => ⟨agrees.name, agrees.columns, agrees.constraints, agrees.indexes⟩⟩

/-- The migrations build the tables of the models, but for one constraint. -/
theorem head_agrees : List.Forall₂ Table.Agrees head.tables
    (models.tables.map fun table =>
      { table with constraints := table.constraints.filter (·.name ≠ "ck_ledger_entries_amount_nonzero") }) := by
  decide +kernel

end LedgerFlow.Migrations
