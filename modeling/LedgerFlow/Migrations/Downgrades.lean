import LedgerFlow.Migrations.Commands
import LedgerFlow.Migrations.Versions
import Mathlib.Data.List.Nodup

/-! The downgrades of the migrations, and what becomes of a database that is upgraded and downgraded in any way. -/

namespace LedgerFlow.Migrations

def createAccountsTable.downgrade : List DownOp := [.dropTable "accounts"]

def createLedgerTables.downgrade : List DownOp := [.dropTable "ledger_entries", .dropTable "transactions"]

def addTransactionIdempotencyKey.downgrade : List DownOp := [
  .dropConstraint none "transactions",
  .dropConstraint (some "uq_transactions_idempotency_key") "transactions",
  .dropColumn "transactions" "idempotency_key"]

def addTransactionIdempotencyKey'.downgrade : List DownOp := []

def addLedgerConstraintsIndexesAndRequestHash.downgrade : List DownOp := [
  .dropIndex "ix_transactions_created_at" "transactions",
  .createUniqueConstraint (some "transactions_idempotency_key_key") "transactions" ["idempotency_key"],
  .dropColumn "transactions" "request_hash",
  .dropIndex "ix_ledger_entries_transaction_id" "ledger_entries",
  .dropIndex "ix_ledger_entries_account_id" "ledger_entries",
  .dropIndex "ix_ledger_entries_account_created" "ledger_entries"]

def createOutboxEvents.downgrade : List DownOp := [
  .dropIndex "ix_outbox_events_status_created_at" "outbox_events",
  .dropIndex "ix_outbox_events_aggregate_id" "outbox_events",
  .dropTable "outbox_events"]

def addOutboxRetryScheduling.downgrade : List DownOp := [.dropColumn "outbox_events" "next_retry_at"]

def addOutboxProcessingState.downgrade : List DownOp := [.dropColumn "outbox_events" "claimed_at"]

def addProcessedEvents.downgrade : List DownOp := [.dropTable "processed_events"]

def addAccountBalanceProjection.downgrade : List DownOp := [.dropTable "account_balance_projections"]

/-- PostgreSQL does not remove a value of an enumerated type. -/
def addProcessingStatusToOutboxEnum.downgrade : List DownOp := []

def history : List Revision := [
  ⟨createAccountsTable, createAccountsTable.downgrade⟩,
  ⟨createLedgerTables, createLedgerTables.downgrade⟩,
  ⟨addTransactionIdempotencyKey, addTransactionIdempotencyKey.downgrade⟩,
  ⟨addTransactionIdempotencyKey', addTransactionIdempotencyKey'.downgrade⟩,
  ⟨addLedgerConstraintsIndexesAndRequestHash, addLedgerConstraintsIndexesAndRequestHash.downgrade⟩,
  ⟨createOutboxEvents, createOutboxEvents.downgrade⟩,
  ⟨addOutboxRetryScheduling, addOutboxRetryScheduling.downgrade⟩,
  ⟨addOutboxProcessingState, addOutboxProcessingState.downgrade⟩,
  ⟨addProcessedEvents, addProcessedEvents.downgrade⟩,
  ⟨addAccountBalanceProjection, addAccountBalanceProjection.downgrade⟩,
  ⟨addProcessingStatusToOutboxEnum, addProcessingStatusToOutboxEnum.downgrade⟩]

def Database.Applied (revision : String) (database : Database) : Prop :=
  revision ∈ (history.take database.version).map (·.revision)

variable {d d' d'' : Database} {revision : Revision} {n : ℕ}

deriving instance DecidableEq for Migration

theorem history_leads : heads versions = [addProcessingStatusToOutboxEnum] ∧
    lineage versions versions.length (some addProcessingStatusToOutboxEnum.revision) =
    some (history.map (·.toMigration)) ∧
    (history.map (·.revision)).Nodup := by
  decide +kernel

theorem history_tables : ∀ (version : ℕ) (below : version < history.length),
    history[version].downgrade.foldlM DownOp.apply (tablesAt history (version + 1)) ∈
    [none, some (tablesAt history version)] ∧
      (2 ≤ version → ∃ table ∈ tablesAt history (version + 1), table.name = "transactions" ∧
        ∃ constraint ∈ table.constraints, constraint.rule = .unique ["idempotency_key"]) := by
  decide +kernel

theorem upgradeHead_history : upgradeHead versions = execute (history.flatMap (·.upgrade)) {} :=
  upgradeHead_of_lineage history_leads.1 history_leads.2.1

theorem reversible : Reversible history where
  upgrades := upgradeHead_history ▸ upgradeHead_isSome
  downgrades version below := (history_tables version below).1

theorem applied_iff (found : history[n]? = some revision) : d.Applied revision.revision ↔ n < d.version := by
  obtain ⟨below, rfl⟩ := List.getElem?_eq_some_iff.1 found
  have listed : n < (history.map (·.revision)).length := by
    rw [List.length_map]
    exact below
  rw [Database.Applied, List.map_take, List.mem_take_iff_getElem]
  constructor
  · rintro ⟨i, bound, same⟩
    obtain ⟨applied, bound⟩ := Nat.lt_min.1 bound
    have own : (history.map (·.revision))[i] = (history.map (·.revision))[n] := by
      rw [same, List.getElem_map]
    rw [history_leads.2.2.getElem_inj_iff] at own
    exact own ▸ applied
  · intro applied
    exact ⟨n, Nat.lt_min.2 ⟨applied, listed⟩, List.getElem_map ..⟩

/-- After any commands the tables are those that an upgrade of an empty database to the same version builds,
so at the head they are the tables that the service runs on. -/
theorem tables_of_commands (reaches : Reaches history {} d) :
    (∃ schema, execute ((history.take d.version).flatMap (·.upgrade)) {} = some schema ∧
      d.schema.tables = schema.tables) ∧ (d.Applied "599606e893fc" → d.schema.tables = head.tables) := by
  obtain ⟨bound, same⟩ := reversible.tables reaches
  obtain ⟨schema, executed, tables⟩ := reversible.execute_take d.version
  refine ⟨⟨schema, executed, same.trans tables.symm⟩, fun applied => ?_⟩
  have whole : d.version = history.length := Nat.le_antisymm bound ((applied_iff (n := 10) rfl).1 applied)
  have built : upgradeHead versions = some schema := by
    rw [upgradeHead_history, ← executed, whole, List.take_length]
  rw [same, ← tables]
  exact congrArg Schema.tables (Option.some.inj ((Option.some_get _).trans built)).symm

theorem reaches_after (command : Command) : Reaches history d (command.after history d) :=
  Relation.ReflTransGen.single ⟨command, rfl⟩

def upgraded : Database := (Command.upgrade 11).after history {}

def restored : Database := (Command.upgrade 5).after history ((Command.downgrade 5).after history upgraded)

def cutBack : Database := (Command.downgrade 6).after history upgraded

theorem versions_after : upgraded.version = 11 ∧ restored.version = 11 ∧ cutBack.version = 5 := by
  decide +kernel

theorem tables_of_commands_sample : restored.Applied "599606e893fc" ∧ restored.schema.tables = head.tables := by
  have applied : restored.Applied "599606e893fc" := by
    refine (applied_iff (n := 10) rfl).2 ?_
    rw [versions_after.2.1]
    decide
  have reaches : Reaches history {} restored :=
    ((reaches_after (.upgrade 11)).trans (reaches_after (.downgrade 5))).trans (reaches_after (.upgrade 5))
  exact ⟨applied, (tables_of_commands reaches).2 applied⟩

/-- Once an idempotency key is unique, no command takes that back: the statement that should undo the revision
cannot be compiled. And a revision that has created an enumerated type cannot be applied again once it is
undone, since the type stays. -/
theorem undone_for_good (reaches : Reaches history {} d) (later : Reaches history d d') :
    (d.Applied "94c0a56afe8b" → d'.Applied "94c0a56afe8b" ∧
      d'.schema.Has "transactions" (.unique ["idempotency_key"])) ∧
      ∀ revision ∈ history, ∀ name, revision.Creates name → d.Applied revision.revision →
      ¬d'.Applied revision.revision →
        ∀ d'', Reaches history d' d'' → ¬d''.Applied revision.revision := by
  constructor
  · intro applied
    have kept : 2 < d'.version := later.final (n := 2) rfl List.mem_cons_self ((applied_iff (n := 2) rfl).1 applied)
    obtain ⟨bound, same⟩ := reversible.tables (reaches.trans later)
    obtain ⟨version, last⟩ : ∃ version, d'.version = version + 1 := Nat.exists_eq_succ_of_ne_zero (by omega)
    rw [last] at bound same kept
    obtain ⟨table, member, named, keyed⟩ := (history_tables version bound).2 (Nat.le_of_lt_succ kept)
    exact ⟨(applied_iff (n := 2) rfl).2 (last ▸ kept), table, same ▸ member, named, keyed⟩
  · intro revision listed name creates applied undone d'' again
    obtain ⟨n, found⟩ := List.mem_iff_getElem?.1 listed
    rw [applied_iff found] at applied undone ⊢
    exact Nat.not_lt.2 (reaches.lost found creates applied later (Nat.not_lt.1 undone) again)

theorem undone_for_good_sample : upgraded.Applied "bf0ee840140a" ∧ ¬cutBack.Applied "bf0ee840140a" ∧
    ∀ d, Reaches history cutBack d → ¬d.Applied "bf0ee840140a" := by
  have applied : upgraded.Applied "bf0ee840140a" := by
    refine (applied_iff (n := 5) rfl).2 ?_
    rw [versions_after.1]
    decide
  have undone : ¬cutBack.Applied "bf0ee840140a" := by
    intro applied
    have above := (applied_iff (n := 5) rfl).1 applied
    rw [versions_after.2.2] at above
    exact Nat.lt_irrefl 5 above
  have creates : Revision.Creates "outboxstatus" ⟨createOutboxEvents, createOutboxEvents.downgrade⟩ :=
    ⟨_, List.mem_cons_self⟩
  have lost := (undone_for_good (reaches_after (.upgrade 11)) (reaches_after (.downgrade 6))).2 _
    (List.mem_of_getElem? (i := 5) rfl) _ creates applied undone
  exact ⟨applied, undone, lost⟩

end LedgerFlow.Migrations
