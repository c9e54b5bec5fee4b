import LedgerFlow.Concurrency.Sequel
import LedgerFlow.Ledger.Tracking

/-! The system account: deposits and withdrawals look it up by its type and its name,
and go wrong where they find two. -/

namespace LedgerFlow.Ledger
open Accounts Outbox Concurrency World

def Tables.cashAccounts (db : Tables) : List Account := db.accounts.filter (·.isSystemCash)

@[simp] theorem Tables.cashAccounts_append (db rows : Tables) :
    (db ++ rows).cashAccounts = db.cashAccounts ++ rows.cashAccounts := by
  simp [cashAccounts]

def Request.LooksForCash : Request → Prop
  | .createDeposit _ _ => True
  | .createWithdrawal _ _ => True
  | _ => False

def Request.CreatesCash : Request → Prop
  | .createAccount created =>
    AccountType.ofStr created.accountType = some .system ∧ created.ownerName = "SYSTEM_CASH"
  | _ => False

instance : DecidablePred Request.CreatesCash
  | .createAccount _ => inferInstanceAs (Decidable (_ ∧ _))
  | .createDeposit _ _ | .createWithdrawal _ _ | .createTransfer _ _ _ _ | .getBalance _ | .getBalanceAt _ _ =>
    inferInstanceAs (Decidable False)

/-- No call that comes to its commit creates one more system account. -/
def OrdinaryAccounts (env : Deployment) (s : State (machine env)) (a : Action (machine env)) : Prop :=
  ∀ p request, CommitsFor p request s a → ¬request.CreatesCash

/-- The lookup of the system account finds one account at most, and no deposit and no
withdrawal has come to `MultipleResultsFound`. -/
structure CashUnique {env : Deployment} (s : State (machine env)) : Prop where
  unique : s.world.db.cashAccounts.length ≤ 1
  unambiguous : ∀ p proc, s.procs p = some proc → proc.request.LooksForCash →
      proc.rest ≠ .raise .multipleResultsFound

variable {env : Deployment} {w : World} {s : State (machine env)}

theorem Posting.cashAccounts_rows (P : Posting) : P.rows.cashAccounts = [] := rfl

theorem Commits.cashAccounts {db rows : Tables} {request : Request} (commits : Commits env db request rows)
    (ordinary : ¬request.CreatesCash) : rows.cashAccounts = [] := by
  cases commits with
  | opens created account same owner typed =>
    subst same
    have other : account.isSystemCash = false := by
      by_contra cash
      apply ordinary
      simp only [Account.isSystemCash, Bool.not_eq_false, Bool.and_eq_true, decide_eq_true_eq] at cash
      exact ⟨by rw [typed, cash.1], by rw [← owner, cash.2]⟩
    simp [Tables.cashAccounts, other]
  | posts P => exact P.cashAccounts_rows

theorem cashAccounts_of_runs (opening : w.Opening)
    (runs : (machine env).Runs (OrdinaryAccounts env) ((machine env).initial w) s) :
    s.world.db.cashAccounts = w.db.cashAccounts := by
  refine kept_of_runs (I := fun db => db.cashAccounts = w.db.cashAccounts) opening rfl ?_ runs
  intro s a p request rows ordinary committed commits _ same
  rw [Tables.cashAccounts_append, commits.cashAccounts (ordinary p request committed), List.append_nil, same]

def Unambiguous : (stmt : Stmt) → stmt.Result → Prop
  | .selectAccount _, rows => rows.length ≤ 1
  | .selectSystemCash, rows => rows.length ≤ 1
  | .insertTransaction _, result => result ≠ .error .multipleResultsFound
  | .insertEntry _ _ _, result => result ≠ .error .multipleResultsFound
  | _, _ => True

/-- While its lookups find one row at most, the program does not raise `MultipleResultsFound`. -/
abbrev Clear {α : Type} (prog : Code α) : Prop :=
  prog.Spares (L := language) Unambiguous (· = .multipleResultsFound)

namespace Clear
variable {α β : Type}

theorem scalarOneOrNone {rows : List α} {next : Option α → Code β} (single : rows.length ≤ 1)
    (none : Clear (next none)) (some : ∀ row, Clear (next (some row))) :
    Clear (Ledger.scalarOneOrNone rows >>= next) := by
  rcases rows with _ | ⟨row, _ | ⟨other, rest⟩⟩
  · exact none
  · exact some row
  · simp only [List.length_cons] at single
    omega

theorem valueError (message : String) : Clear (.raise (.valueError message) : Code α) := by
  intro same
  cases same

theorem overflow : Clear (.raise .overflow : Code α) := by
  intro same
  cases same

theorem checked {result : Except PyError α} {next : α → Code β} (fine : result ≠ .error .multipleResultsFound)
    (rest : ∀ value, Clear (next value)) : Clear (Ledger.checked result >>= next) := by
  cases result with
  | ok value => exact rest value
  | error error =>
    intro same
    exact fine (congrArg Except.error same)

theorem lockRows {rows : List Account} {next : List Account → Code β} (rest : Clear (next rows)) :
    Clear ((lockAll rows >>= fun _ => .ret rows) >>= next) := by
  rw [Prog.bind_assoc]
  suffices all : ∀ others, Clear (lockAll others >>= fun _ => next rows) from all rows
  intro others
  induction others with
  | nil => exact rest
  | cons account others ih => exact fun _ _ => ih

theorem flushTransaction {transactionType : TransactionType} {reference : String} {key hash : Option String}
    {next : Transaction → Code β} (rest : ∀ transaction, Clear (next transaction)) :
    Clear (flushTransaction transactionType reference key hash >>= next) := by
  intro transactionId _ createdAt _ result fine
  change Clear ((Ledger.checked result >>= _) >>= next)
  rw [Prog.bind_assoc]
  exact checked fine fun _ => rest _

theorem posting {transactionId x y aggregateId : UUID} {debit credit : Decimal} {eventType : String} {payload : Json}
    {next : Code β} (rest : Clear next) : Clear (do
      insertEntry transactionId x debit
      insertEntry transactionId y credit
      flushOutboxEvent aggregateId eventType payload
      commit
      next) := by
  intro result fine
  apply checked fine
  intro _ result fine
  apply checked fine
  intro _ eventId _ createdAt _ inserted _ committed _
  exact rest

theorem bestEffort {body : Code Unit} {next : Unit → Code β} (rest : Clear (next ())) :
    Clear (bestEffort body >>= next) := by
  induction body with
  | ret value => exact rest
  | raise error => exact rest
  | call stmt more ih => exact fun result _ => ih result

theorem ite {c : Prop} [Decidable c] {x y : Code α} (yes : Clear x) (no : Clear y) : Clear (if c then x else y) := by
  split_ifs
  · exact yes
  · exact no

theorem createDeposit (x : UUID) (amount : Decimal) : Clear (createDeposit x amount) := by
  intro rows single
  apply scalarOneOrNone single (valueError _)
  intro account
  apply ite (valueError _)
  intro rows single
  apply scalarOneOrNone single (valueError _)
  intro system
  apply flushTransaction
  intro transaction
  cases amount.neg with
  | none => exact overflow
  | some debit =>
    apply posting
    intro _ _
    exact bestEffort trivial

theorem createWithdrawal (x : UUID) (amount : Decimal) : Clear (createWithdrawal x amount) := by
  intro rows single
  apply lockRows
  apply scalarOneOrNone single (valueError _)
  intro account
  apply ite (valueError _)
  intro total _
  simp only [decimalOf_eq]
  apply ite (valueError _)
  intro rows single
  apply scalarOneOrNone single (valueError _)
  intro system
  apply flushTransaction
  intro transaction
  cases amount.neg with
  | none => exact overflow
  | some debit =>
    apply posting
    intro _ _
    exact bestEffort trivial

end Clear

theorem clear_body {request : Request} (looks : request.LooksForCash) : Clear (body env request) := by
  cases request with
  | createDeposit x amount => exact .bind (Clear.createDeposit x amount.value) fun _ => trivial
  | createWithdrawal x amount => exact .bind (Clear.createWithdrawal x amount.value) fun _ => trivial
  | createAccount | createTransfer | getBalance | getBalanceAt => exact looks.elim

/-- No insert fails the way a lookup does, and no lookup by identifiers finds two accounts; nor does the one
by the name, where there is one system account at most. -/
theorem unambiguous_of_exec {p : ℕ} {w' : World} {φ : Progress} {request : Request} {stmt : Stmt} {choice : Choice}
    {result : stmt.Result} (consistent : w.db.Consistent) (unique : w.db.cashAccounts.length ≤ 1)
    (tracks : φ.Tracks env p w)
    (allowed : φ.Allowed request stmt) (executed : exec env p stmt choice w = some (result, w')) :
    Unambiguous stmt result := by
  cases stmt with
  | selectAccount x =>
    cases executed
    unfold Unambiguous
    rw [tracks.visible allowed.1]
    rcases consistent.account_cases x with ⟨none, _⟩ | ⟨account, _, _, one⟩
    · simp [none]
    · simp [one]
  | selectSystemCash =>
    cases executed
    unfold Unambiguous
    rw [tracks.visible allowed.1]
    exact unique
  | insertTransaction transaction =>
    intro failed
    subst failed
    rcases exec_insertTransaction executed with
      ⟨_, other, _⟩ | ⟨row, _, ⟨_, other, _⟩ | ⟨key, _, ⟨_, other, _⟩ | ⟨_, _, other, _⟩⟩⟩
    all_goals cases other
  | insertEntry transactionId x amount =>
    intro failed
    subst failed
    simp only [exec] at executed
    split at executed
    · cases executed
    · split_ifs at executed <;> cases executed
  | _ => trivial

theorem system_account_unique (opening : w.Opening) (single : w.db.cashAccounts.length = 1)
    (runs : (machine env).Runs (OrdinaryAccounts env) ((machine env).initial w) s) : CashUnique s := by
  have unique : ∀ {s : State (machine env)},
      (machine env).Runs (OrdinaryAccounts env) ((machine env).initial w) s →
      s.world.db.cashAccounts.length ≤ 1 := by
    intro s runs
    rw [cashAccounts_of_runs opening runs, single]
  have clear : ∀ p proc, s.procs p = some proc → proc.request.LooksForCash → Clear proc.rest := by
    apply Machine.Runs.spares (fun _ looks => clear_body looks) _ _ runs
    · intro same
      cases same
    intro s p proc choice stmt next result w' reached found looks rest executed
    obtain ⟨trace, traces⟩ := Machine.Runs.traces reached
    have tracks := tracks_of_traces opening traces (Protocol.open_of_call found rest)
    have consistent := consistent_of_runs opening reached
    exact unambiguous_of_exec consistent (unique reached) tracks (allowed_of_traces traces found rest) executed
  refine ⟨unique runs, fun p proc found looks raised => ?_⟩
  have spares := clear p proc found looks
  rw [raised] at spares
  exact spares rfl

def openAccount (p : ℕ) (accountType ownerName : String)
    (named : 1 ≤ ownerName.length ∧ ownerName.length ≤ 100) : List (Action (machine sample)) :=
  [.start p (.createAccount ⟨ownerName, accountType, "INR", named, rfl⟩), .step p (.uuid 7), .step p .proceed,
    .step p .proceed, .step p .proceed]

def ordinary : State (machine sample) → Action (machine sample) → Bool
  | s, .step p _ =>
    match nextStmt p s with
    | some .commit => decide (∀ request ∈ requestOf p s, ¬request.CreatesCash)
    | _ => true
  | _, _ => true

theorem ordinary_of_allowed (s : State (machine sample)) (a : Action (machine sample)) (allowed : ordinary s a) :
    OrdinaryAccounts sample s a := by
  intro p request committed
  obtain ⟨choice, rfl⟩ := committed.own
  simp only [ordinary, committed.next] at allowed
  exact of_decide_eq_true allowed request committed.asked

def lookups (s : State (machine sample)) : ℕ × Bool :=
  ((s.world : World).db.cashAccounts.length, match answer 1 s with
    | some (.error error) => error = .multipleResultsFound
    | _ => false)

theorem system_account_unique_sample : ∃ s : State (machine sample),
    lookups s = (1, false) ∧ CashUnique s := by
  have executed : ((machine sample).run ordinary ((machine sample).initial bank)
      (openAccount 0 "SYSTEM" "SYSTEM_FEES" (by decide) ++ deposit 1 oneRupee)).map lookups = some (1, false) := by
    decide +kernel
  obtain ⟨s, runs, observed⟩ := Machine.Runs.of_observed (OrdinaryAccounts sample) ordinary_of_allowed executed
  exact ⟨s, observed, system_account_unique bank_opening (by decide) runs⟩

/-- Anyone can open a second `SYSTEM_CASH`; the deposit that Alice makes next fails. -/
theorem not_system_account_unique : ¬∀ s : State (machine sample),
    (machine sample).Runs (machine sample).anything ((machine sample).initial bank) s → CashUnique s := by
  intro unique
  have executed : ((machine sample).run (fun _ _ => true) ((machine sample).initial bank)
      (openAccount 0 "SYSTEM" "SYSTEM_CASH" (by decide) ++
        [.start 1 (.createDeposit 2 oneRupee), .step 1 .proceed, .step 1 .proceed])).map lookups =
          some (2, true) := by
    decide +kernel
  obtain ⟨s, runs, observed⟩ := Machine.Runs.of_observed _ (fun _ _ _ => trivial) executed
  have two : s.world.db.cashAccounts.length = 2 := congrArg Prod.fst observed
  have one := (unique s runs).unique
  omega

end LedgerFlow.Ledger
