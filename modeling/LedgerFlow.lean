import LedgerFlow.Consumers.Advance
import LedgerFlow.Consumers.Agreement
import LedgerFlow.Consumers.Capacity
import LedgerFlow.Consumers.Deadlock
import LedgerFlow.Consumers.Reader
import LedgerFlow.Ledger.Atomicity
import LedgerFlow.Ledger.Balances
import LedgerFlow.Ledger.Cache
import LedgerFlow.Ledger.Coherence
import LedgerFlow.Ledger.Currency
import LedgerFlow.Ledger.Deadlock
import LedgerFlow.Ledger.History
import LedgerFlow.Ledger.Idempotency
import LedgerFlow.Ledger.Offline
import LedgerFlow.Ledger.Outage
import LedgerFlow.Ledger.Paging
import LedgerFlow.Ledger.Parties
import LedgerFlow.Ledger.PointInTime
import LedgerFlow.Ledger.Provenance
import LedgerFlow.Ledger.Refusals
import LedgerFlow.Ledger.Reporting
import LedgerFlow.Ledger.RequestHash
import LedgerFlow.Ledger.Retry
import LedgerFlow.Ledger.Schema
import LedgerFlow.Ledger.Serial
import LedgerFlow.Ledger.Solvency
import LedgerFlow.Ledger.SystemAccount
import LedgerFlow.Migrations.Downgrades
import LedgerFlow.Outbox.Backoff
import LedgerFlow.Outbox.Batch
import LedgerFlow.Outbox.Drain
import LedgerFlow.Outbox.Ended
import LedgerFlow.Outbox.Exclusive
import LedgerFlow.Outbox.Finality
import LedgerFlow.Outbox.Lease
import LedgerFlow.Outbox.Loop
import LedgerFlow.Outbox.Recovery
import LedgerFlow.Outbox.Retries
import LedgerFlow.Pipeline.CatchUp
import LedgerFlow.Pipeline.Projection
import LedgerFlow.Pipeline.Wire
