import LedgerFlow.Ledger.Runs

/-! Balances at a point in time: two queries agree unless a transaction stamped before that time is committed
after one of them has read. -/

namespace LedgerFlow.Ledger
open Accounts Outbox Concurrency

variable {env : Deployment} {db : Tables} {request : Request} {w w' : World} {s t : State (machine env)}

theorem Commits.amountsUntil {rows : Tables} (commits : Commits env db request rows) (consistent : db.Consistent)
    (x : UUID) (timestamp : Timestamp) :
    (db ++ rows).amountsUntil x timestamp = db.amountsUntil x timestamp ++ rows.amountsUntil x timestamp := by
  have apart : ∀ entry ∈ db.entries, ∀ transaction ∈ rows.transactions,
      transaction.transactionId ≠ entry.transactionId := by
    intro entry member transaction new same
    cases commits with
    | opens => cases new
    | posts P posted fresh =>
      cases List.mem_singleton.1 new
      exact Tables.not_mem_transactions fresh (same ▸ consistent.transactionOf entry member)
  have apart' : ∀ entry ∈ rows.entries, ∀ transaction ∈ db.transactions,
      transaction.transactionId ≠ entry.transactionId := by
    intro entry new transaction member same
    cases commits with
    | opens => cases new
    | posts P posted fresh =>
      have owner : entry.transactionId = P.transaction.transactionId := by
        simp only [Posting.rows, List.mem_cons, List.not_mem_nil, or_false] at new
        rcases new with rfl | rfl <;> rfl
      exact Tables.not_mem_transactions fresh (owner ▸ same ▸ List.mem_map_of_mem member)
  simp only [Tables.amountsUntil, Tables.append_entries, Tables.append_transactions, List.filter_append,
    List.flatMap_append]
  congr 1
  · refine List.flatMap_congr fun entry member => ?_
    have none : rows.transactions.filter (fun transaction =>
        transaction.transactionId = entry.transactionId ∧ transaction.createdAt ≤ timestamp) = [] :=
      List.filter_eq_nil_iff.2 fun transaction new => by
        simp [apart entry (List.mem_filter.1 member).1 transaction new]
    rw [none, List.append_nil]
  · refine List.flatMap_congr fun entry member => ?_
    have none : db.transactions.filter (fun transaction =>
        transaction.transactionId = entry.transactionId ∧ transaction.createdAt ≤ timestamp) = [] :=
      List.filter_eq_nil_iff.2 fun transaction old => by
        simp [apart' entry (List.mem_filter.1 member).1 transaction old]
    rw [none, List.nil_append]

/-- When a transaction with an entry on `x` stamped by `timestamp` is committed, no query for that account and time
that started later than the time has read its sum. -/
def Punctual (s : State (machine env)) (a : Action (machine env)) : Prop :=
  ∀ q choice p reader x timestamp (w₁ : World), a = .step q choice → nextStmt q s = some .commit →
    (World.sessions s.world q).writes.amountsUntil x timestamp ≠ [] → s.procs p = some reader →
    reader.request = .getBalanceAt x timestamp → timestamp < World.clock reader.started →
    (Stmt.sumEntriesUntil x timestamp, w₁) ∉ reader.past

/-- What each late query has read is what it would read now. -/
def Seen (s : State (machine env)) : Prop :=
  ∀ p reader x timestamp (w₁ : World), s.procs p = some reader → reader.request = .getBalanceAt x timestamp →
    timestamp < World.clock reader.started → (Stmt.sumEntriesUntil x timestamp, w₁) ∈ reader.past →
    w₁.db.amountsUntil x timestamp = s.world.db.amountsUntil x timestamp

def Answered (s : State (machine env)) : Prop :=
  ∀ p reader x timestamp value, s.procs p = some reader → reader.request = .getBalanceAt x timestamp →
    reader.rest = .ret value → ∃ w₁ : World, (Stmt.sumEntriesUntil x timestamp, w₁) ∈ reader.past ∧
      value = .balance (coalesceSum (w₁.db.amountsUntil x timestamp))

theorem Seen.step {a : Action (machine env)} (covered : (contract env fun _ => True).Covers Unused s) (seen : Seen s)
    (punctual : Punctual s a) (stepped : (machine env).step s a = some t) : Seen t := by
  rcases Machine.step_cases stepped with ⟨q, request, rfl, fresh, rfl⟩ |
    ⟨q, choice, proc, stmt, next, result, w', rfl, found, rest, executed, rfl⟩ |
    ⟨q, proc, rfl, found, running, rfl⟩ | ⟨q, proc, rfl, found, finished, rfl⟩ | ⟨e, w', rfl, ticked, rfl⟩
  · intro p reader x timestamp w₁ found
    rcases Machine.found_update found with ⟨rfl, rfl⟩ | ⟨_, old⟩
    · exact fun _ _ summed => absurd summed List.not_mem_nil
    · exact seen p reader x timestamp w₁ old
  · have guar := ((sound env _).guar_of_step covered found rest executed).1
    have unchanged := (exec_frame executed).1
    -- what a late query has read stays as it is, whichever statement this is
    have kept : ∀ p reader x timestamp (w₁ : World), s.procs p = some reader →
        reader.request = .getBalanceAt x timestamp →
        timestamp < World.clock reader.started → (Stmt.sumEntriesUntil x timestamp, w₁) ∈ reader.past →
        w₁.db.amountsUntil x timestamp = Tables.amountsUntil w'.db x timestamp := by
      intro p reader x timestamp w₁ found' request late summed
      rw [seen p reader x timestamp w₁ found' request late summed]
      rcases guar.commits with same | ⟨rows, _, commits, grown, written⟩
      · rw [same]
      · by_cases commit : stmt = .commit
        · have none : rows.amountsUntil x timestamp = [] := by
            by_contra stamped
            rw [written] at stamped
            exact punctual q choice p reader x timestamp w₁ rfl (commit ▸ nextStmt_eq found rest)
              stamped found' request late summed
          rw [grown, commits.amountsUntil covered.inv.consistent, none, List.append_nil]
        · rw [unchanged commit]
    intro p reader x timestamp w₁ found' request late summed
    rcases Machine.found_update found' with ⟨rfl, rfl⟩ | ⟨_, old⟩
    · rcases List.mem_cons.1 summed with now | earlier
      · cases now
        rw [unchanged (by simp)]
      · exact kept p proc x timestamp w₁ found request late earlier
    · exact kept p reader x timestamp w₁ old request late summed
  · intro p reader x timestamp w₁ found' request late summed
    rcases Machine.found_update found' with ⟨rfl, rfl⟩ | ⟨_, old⟩
    · exact seen p proc x timestamp w₁ found request late summed
    · exact seen p reader x timestamp w₁ old request late summed
  · exact seen
  · cases ticked
    exact seen

theorem answered_of_runs {ok : State (machine env) → Action (machine env) → Prop} (opening : w.Opening)
    (runs : (machine env).Runs ok ((machine env).initial w) s) : Answered s := by
  intro p reader x timestamp value found same returned
  obtain ⟨u, _, _, outcome⟩ := outcome_of_runs (fun _ => True) (fun _ _ _ _ => trivial) opening
    runs found returned
  rw [same] at outcome
  generalize reader.past = past at outcome
  cases outcome with
  | balanceAt _ _ w₁ earlier summed => exact ⟨w₁, summed ▸ List.mem_cons_self, rfl⟩

/-- Two queries for the same account and time that both start later than the time return the same balance. -/
def Repeatable (env : Deployment) (ok : State (machine env) → Action (machine env) → Prop) : Prop :=
  ∀ {w : World} {s : State (machine env)}, w.Opening → (machine env).Runs ok ((machine env).initial w) s →
    ∀ {p q first second x timestamp value value'}, s.procs p = some first → s.procs q = some second →
      first.request = .getBalanceAt x timestamp → second.request = .getBalanceAt x timestamp →
      timestamp < World.clock first.started → timestamp < World.clock second.started →
      first.rest = .ret value → second.rest = .ret value' → value = value'

theorem seen_of_runs (opening : w.Opening)
    (runs : (machine env).Runs Punctual ((machine env).initial w) s) : Seen s := by
  induction runs with
  | refl => exact fun p reader x timestamp w₁ found => by simp [Machine.initial] at found
  | tail runs stepped ih =>
    obtain ⟨a, punctual, stepped⟩ := stepped
    exact ih.step (covers _ (fun _ _ _ _ => trivial) opening runs) punctual stepped

theorem repeatable (env : Deployment) : Repeatable env Punctual := by
  intro w s opening runs p q first second x timestamp value value' found found' request request' late late'
    returned returned'
  have seen := seen_of_runs opening runs
  obtain ⟨w₁, summed, rfl⟩ := answered_of_runs opening runs p first x timestamp value found request returned
  obtain ⟨w₂, summed', rfl⟩ := answered_of_runs opening runs q second x timestamp value' found'
    request' returned'
  rw [seen p first x timestamp w₁ found request late summed,
    seen q second x timestamp w₂ found' request' late' summed']

def balanceAtZero (p : ℕ) : List (Action (machine sample)) :=
  [.start p (.getBalanceAt 2 0), .step p .proceed, .step p .proceed]

def balanceOf (p : ℕ) (s : State (machine sample)) : Option Decimal :=
  match answer p s with
  | some (.ok (.balance balance)) => some balance
  | _ => none

def startOf (p : ℕ) (s : State (machine sample)) : Option Timestamp := (s.procs p).map fun proc =>
    World.clock proc.started

theorem queries {s : State (machine sample)} {p : ℕ} {balance : Decimal}
    (request : requestOf p s = some (.getBalanceAt 2 0))
    (start : startOf p s = some 1) (returned : balanceOf p s = some balance) :
    ∃ proc, s.procs p = some proc ∧ proc.request = .getBalanceAt 2 0 ∧ 0 < World.clock proc.started ∧
      proc.rest = .ret (.balance balance) := by
  obtain ⟨proc, found, request⟩ := Option.map_eq_some_iff.1 request
  obtain ⟨proc', found', start⟩ := Option.map_eq_some_iff.1 start
  cases found.symm.trans found'
  refine ⟨proc, found, request, by rw [start]; decide, answer_eq_ok found ?_⟩
  unfold balanceOf at returned
  split at returned
  · rename_i answered
    cases returned
    exact answered
  · cases returned

def commitsNothing : State (machine sample) → Action (machine sample) → Bool
  | s, .step p _ =>
    match nextStmt p s with
    | some .commit => false
    | _ => true
  | _, _ => true

theorem repeatable_sample : ∃ s : State (machine sample), balanceOf 1 s = balanceOf 2 s ∧
    balanceOf 1 s = some ⟨false, 10000, -2⟩ := by
  have executed : ((machine sample).run commitsNothing ((machine sample).initial bank)
      ([.tick (1 : ℕ)] ++ balanceAtZero 1 ++ balanceAtZero 2)).map
        (fun s => ((requestOf 1 s, startOf 1 s, balanceOf 1 s),
        requestOf 2 s, startOf 2 s, (balanceOf 2 s).isSome)) = some ((some (.getBalanceAt 2 0), some 1,
          some ⟨false, 10000, -2⟩), some (.getBalanceAt 2 0), some 1, true) := by
    decide +kernel
  obtain ⟨s, runs, observed⟩ := Machine.Runs.of_observed Punctual (fun s a permitted => by
    rintro q choice p reader x timestamp w₁ rfl commit
    simp [commitsNothing, commit] at permitted) executed
  simp only [Prod.mk.injEq] at observed
  obtain ⟨⟨request, start, returned⟩, request', start', some⟩ := observed
  obtain ⟨balance, returned'⟩ := Option.isSome_iff_exists.1 some
  obtain ⟨first, found, asked, late, value⟩ := queries request start returned
  obtain ⟨second, found', asked', late', value'⟩ := queries request' start' returned'
  have same := repeatable sample bank_opening runs found found' asked asked' late late' value value'
  exact ⟨s, by rw [returned, returned', Value.balance.inj same], returned⟩

/-- A deposit is stamped at time zero and committed between two queries at time one. -/
theorem not_repeatable : ¬Repeatable sample fun _ _ => True := by
  intro repeats
  have executed : ((machine sample).run (fun _ _ => true) ((machine sample).initial bank)
      ((deposit 0 oneRupee).take 10 ++ [.tick (1 : ℕ)] ++ balanceAtZero 1 ++ (deposit 0 oneRupee).drop 10 ++
        balanceAtZero 2)).map (fun s => ((requestOf 1 s, startOf 1 s, balanceOf 1 s), requestOf 2 s, startOf 2 s,
          balanceOf 2 s)) = some ((some (.getBalanceAt 2 0), some 1, some ⟨false, 10000, -2⟩),
          some (.getBalanceAt 2 0), some 1, some ⟨false, 10100, -2⟩) := by
    decide +kernel
  obtain ⟨s, runs, observed⟩ := Machine.Runs.of_observed (fun _ _ => True) (fun _ _ _ => trivial) executed
  simp only [Prod.mk.injEq] at observed
  obtain ⟨⟨request, start, returned⟩, request', start', returned'⟩ := observed
  obtain ⟨first, found, request, late, returned⟩ := queries request start returned
  obtain ⟨second, found', request', late', returned'⟩ := queries request' start' returned'
  have same := repeats bank_opening runs found found' request request' late late' returned returned'
  exact absurd (Value.balance.inj same) (by decide)

end LedgerFlow.Ledger
