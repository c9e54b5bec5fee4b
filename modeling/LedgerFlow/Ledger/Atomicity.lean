import LedgerFlow.Ledger.Aftermath
import LedgerFlow.Ledger.Runs

/-! Transactions, entries and outbox events are committed together or not at all. -/

namespace LedgerFlow.Ledger
open Accounts Outbox Concurrency

def TransactionType.eventType : TransactionType → String
  | .deposit => "DEPOSIT_POSTED"
  | .withdrawal => "WITHDRAWAL_POSTED"
  | .transfer => "TRANSFER_POSTED"

/-- Events and transactions correspond one to one, with their types; every transaction has two entries, and
every entry is of a transaction. -/
structure Tables.Whole (t : Tables) : Prop where
  ids : (t.transactions.map (·.transactionId)).Nodup
  events : (t.events.map fun event => (event.aggregateId, event.eventType)).Perm
    (t.transactions.map fun transaction => (transaction.transactionId, transaction.transactionType.eventType))
  pairs : ∀ transaction ∈ t.transactions, (t.entriesOf transaction.transactionId).length = 2
  entries : ∀ entry ∈ t.entries, entry.transactionId ∈ t.transactions.map (·.transactionId)

variable {env : Deployment} {db : Tables} {request : Request} {P : Posting} {rows : Tables} {w : World}
  {s t : State (machine env)} {p : ℕ}

theorem PostedBy.announced (posted : PostedBy env db request P) :
    P.event.aggregateId = P.transaction.transactionId ∧
    P.event.eventType = P.transaction.transactionType.eventType := by
  cases posted with
  | deposit _ _ _ _ _ _ _ _ _ _ _ _ typed => exact ⟨rfl, by rw [typed]; rfl⟩
  | withdrawal _ _ _ _ _ _ _ _ _ _ _ _ _ typed => exact ⟨rfl, by rw [typed]; rfl⟩
  | transfer _ _ _ _ _ _ _ _ _ _ _ _ _ _ _ _ _ typed => exact ⟨rfl, by rw [typed]; rfl⟩

theorem Commits.whole (commits : Commits env db request rows) (consistent : db.Consistent) (whole : db.Whole) :
    (db ++ rows).Whole := by
  have after := commits.consistent consistent
  refine ⟨after.transactionIds, ?_, ?_, after.transactionOf⟩
  · cases commits with
    | opens => simpa using whole.events
    | posts P posted fresh =>
      obtain ⟨aggregate, typed⟩ := posted.announced
      rw [Tables.append_events, Tables.append_transactions, List.map_append, List.map_append]
      refine whole.events.append ?_
      simp [Posting.rows, aggregate, typed]
  · intro transaction member
    rcases List.mem_append.1 member with old | new
    · rw [commits.entriesOf old]
      exact whole.pairs transaction old
    · cases commits with
      | opens => cases new
      | posts P posted fresh =>
        rw [List.mem_singleton.1 new, consistent.entriesOf_posting fresh]
        rfl

theorem whole_of_runs {ok : State (machine env) → Action (machine env) → Prop} (opening : w.Opening)
    (whole : w.db.Whole) (runs : (machine env).Runs ok ((machine env).initial w) s) : s.world.db.Whole :=
  kept_of_runs opening whole (fun _ _ _ _ _ _ _ commits consistent => commits.whole consistent) runs

/-- No statement of process `p` between the start `w` and the state `s` has changed the committed tables. -/
def AddsNothing (w : World) (p : ℕ) (s : State (machine env)) : Prop :=
  ∀ u v choice, (machine env).Runs (machine env).anything ((machine env).initial w) u →
    (machine env).step u (.step p choice) = some v → (machine env).Runs (machine env).anything v s →
    v.world.db = u.world.db

theorem addsNothing_of_raised {error : PyError} (raised : answer p s = some (.error error))
    (other : error ≠ .failure) : AddsNothing w p s := by
  intro u v choice before stepped after
  obtain ⟨proc, stmt, next, result, w', found, rest, executed, rfl⟩ := Machine.step_own stepped
  by_cases commit : stmt = .commit
  · subst commit
    -- after its commit a call raises nothing any more
    have never : (next result).NeverRaises := (aftermath_of_runs before found rest).raises
    obtain ⟨proc', found', failed⟩ := after.unraised (Function.update_self ..) never
    exact absurd (failed error (answer_eq_error found' raised)) other
  · exact (exec_frame executed).1 commit

/-- The committed tables are whole, and a call that has raised `ValueError` has added nothing to them. -/
structure CommitsTogether (w : World) (s : State (machine env)) : Prop where
  whole : s.world.db.Whole
  raised : ∀ p message, answer p s = some (.error (.valueError message)) → AddsNothing w p s

/-- In every run, whatever is cut off or refused in it. -/
theorem commits_together (opening : w.Opening) (whole : w.db.Whole)
    (runs : (machine env).Runs (machine env).anything ((machine env).initial w) s) : CommitsTogether w s :=
  ⟨whole_of_runs opening whole runs, fun _ _ raised => addsNothing_of_raised raised nofun⟩

theorem bank_whole : bank.db.Whole := ⟨by decide, by decide, by decide, by decide⟩

def messageOf (p : ℕ) (s : State (machine sample)) : Option String :=
  match answer p s with
  | some (.error (.valueError message)) => some message
  | _ => none

theorem answer_of_messageOf {s : State (machine sample)} {message : String} (raised : messageOf p s = some message) :
    answer p s = some (.error (.valueError message)) := by
  unfold messageOf at raised
  split at raised
  · rename_i text answered
    cases raised
    exact answered
  · cases raised

def thousandRupees : Amount := ⟨⟨false, 1000, 0⟩, rfl, by decide⟩

/-- A withdrawal that Alice cannot afford, and a deposit that is cut off right after its commit. -/
def refusedAndCutOff : List (Action (machine sample)) :=
  [.start 0 (.createWithdrawal 2 thousandRupees), .step 0 .proceed, .step 0 .proceed, .step 0 .proceed, .close 0] ++
    (deposit 1 oneRupee).take 12 ++ [.abort 1, .close 1]

theorem commits_together_sample : ∃ s : State (machine sample), messageOf 0 s = some "Insufficient funds" ∧
    s.world.db.transactions.length = 2 ∧ s.world.db.Whole ∧ AddsNothing bank 0 s := by
  have executed : ((machine sample).run (fun _ _ => true) ((machine sample).initial bank) refusedAndCutOff).map
      (fun s => (messageOf 0 s, (s.world : World).db.transactions.length)) = some (some "Insufficient funds", 2) := by
    decide +kernel
  obtain ⟨s, runs, observed⟩ := Machine.Runs.of_observed _ (fun _ _ _ => trivial) executed
  simp only [Prod.mk.injEq] at observed
  have together := commits_together bank_opening bank_whole runs
  exact ⟨s, observed.1, observed.2, together.whole, together.raised 0 _ (answer_of_messageOf observed.1)⟩

end LedgerFlow.Ledger
