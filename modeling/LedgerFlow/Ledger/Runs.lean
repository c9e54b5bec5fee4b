import LedgerFlow.Ledger.Calls

/-! Runs of the service: they keep the contract, and their committed tables change by whole postings only. -/

namespace LedgerFlow.Ledger
open Accounts Outbox Concurrency World

/-- Before any call runs: no session is open and nothing is locked. -/
structure World.Opening (w : World) : Prop where
  sessions : ∀ p, w.sessions p = {}
  rowLocks : ∀ x, w.rowLocks x = []
  keyLocks : ∀ key, w.keyLocks key = none
  issuedOnce : (w.issued.map (·.2)).Nodup
  consistent : w.db.Consistent

variable {env : Deployment} {permit : Request → Prop} {w : World} {s t : State (machine env)}

theorem World.Opening.valid (opening : w.Opening) : w.Valid where
  exclusive held := by simp [opening.rowLocks] at held
  keyHeld held := by simp [opening.keyLocks] at held
  keyPending held := by simp [opening.keyLocks] at held
  issuedOnce := opening.issuedOnce
  consistent := opening.consistent

def Unused (p : ℕ) (w : World) : Prop := w.sessions p = {}

theorem verified (p : ℕ) (request : Request) (started : World) (admitted : permit request) :
    Verified env permit p request started {} [] (body env request) := by
  cases request with
  | createAccount created => exact .createAccount created admitted
  | createDeposit x amount => exact .createDeposit x amount admitted
  | createWithdrawal x amount => exact .createWithdrawal x amount admitted
  | createTransfer a b amount key => exact .createTransfer a b amount key admitted
  | getBalance x => exact .getBalance x
  | getBalanceAt x timestamp => exact .getBalanceAt x timestamp

theorem sound (env : Deployment) (permit : Request → Prop) : (contract env permit).Sound permit Unused where
  rely_refl := Rely.refl
  rely_trans := Rely.trans
  ready_rely others unused := others.session.trans unused
  guar_inv _ guar := guar.valid
  guar_rely _ guar other := guar.others _ other
  close_inv valid := Valid.finish valid _
  close_rely _ other := Rely.finish other
  tick_inv valid ticked := by
    cases ticked
    exact ⟨valid.exclusive, valid.keyHeld, valid.keyPending, valid.issuedOnce, valid.consistent⟩
  tick_rely _ ticked := by
    cases ticked
    exact .frame rfl rfl id id id
  body_safe admitted valid unused := verified _ _ _ admitted _ valid (.idle unused)

def Admits (ok : State (machine env) → Action (machine env) → Prop) (permit : Request → Prop) : Prop :=
  ∀ s p request, ok s (.start p request) → permit request

theorem covers {ok : State (machine env) → Action (machine env) → Prop} (permit : Request → Prop)
    (admits : Admits ok permit) (opening : w.Opening) (runs : (machine env).Runs ok ((machine env).initial w) s) :
    (contract env permit).Covers Unused s :=
  (sound env permit).covers_runs admits (.initial opening.valid opening.sessions) runs

theorem covers_all {ok : State (machine env) → Action (machine env) → Prop} (opening : w.Opening)
    (runs : (machine env).Runs ok ((machine env).initial w) s) : (contract env fun _ => True).Covers Unused s :=
  covers (fun _ => True) (fun _ _ _ _ => trivial) opening runs

theorem consistent_of_runs {ok : State (machine env) → Action (machine env) → Prop} (opening : w.Opening)
    (runs : (machine env).Runs ok ((machine env).initial w) s) : s.world.db.Consistent :=
  (covers_all opening runs).inv.consistent

def requestOf (p : ℕ) (s : State (machine env)) : Option Request := (s.procs p).map (·.request)

def nextStmt (p : ℕ) (s : State (machine env)) : Option Stmt :=
  match s.procs p with
  | none => none
  | some proc =>
    match (proc.rest : Code Value) with
    | .call stmt _ => some stmt
    | _ => none

theorem requestOf_eq {p : ℕ} {proc : Proc (machine env)} (found : s.procs p = some proc) :
    requestOf p s = some proc.request := by
  rw [requestOf, found]
  rfl

theorem nextStmt_eq {p : ℕ} {proc : Proc (machine env)} {stmt : Stmt} {next : stmt.Result → Code Value}
    (found : s.procs p = some proc) (rest : proc.rest = .call stmt next) : nextStmt p s = some stmt := by
  obtain ⟨request, started, past, rest'⟩ := proc
  subst rest
  simp [nextStmt, found]

/-- The action is the commit of the call that process `p` has been started for. -/
structure CommitsFor (p : ℕ) (request : Request) (s : State (machine env)) (a : Action (machine env)) : Prop where
  own : ∃ choice, a = .step p choice
  asked : requestOf p s = some request
  next : nextStmt p s = some .commit

/-- The committed tables change by the whole posting of a call, when it commits, and not otherwise. -/
theorem commits_of_step {a : Action (machine env)} (covered : (contract env permit).Covers Unused s)
    (stepped : (machine env).step s a = some t) : t.world.db = s.world.db ∨ ∃ p request rows,
    CommitsFor p request s a ∧
      permit request ∧ Commits env s.world.db request rows ∧ t.world.db = s.world.db ++ rows := by
  rcases Machine.step_cases stepped with ⟨p, request, rfl, fresh, rfl⟩ |
    ⟨p, choice, proc, stmt, next, result, w', rfl, found, rest, executed, rfl⟩ |
    ⟨p, proc, rfl, found, running, rfl⟩ | ⟨p, proc, rfl, found, finished, rfl⟩ | ⟨e, w', rfl, ticked, rfl⟩
  · exact .inl rfl
  · by_cases commit : stmt = Stmt.commit
    · subst commit
      have guar := ((sound env permit).guar_of_step covered found rest executed).1
      refine guar.commits.imp id fun ⟨rows, admitted, commits, grown, _⟩ => ?_
      exact ⟨p, proc.request, rows, ⟨⟨choice, rfl⟩, requestOf_eq found, nextStmt_eq found rest⟩,
        admitted, commits, grown⟩
    · exact .inl ((exec_frame executed).1 commit)
  · exact .inl rfl
  · exact .inl rfl
  · cases ticked
    exact .inl rfl

theorem takes_of_step {a : Action (machine env)} (covered : (contract env permit).Covers Unused s)
    (stepped : (machine env).step s a = some t) : t.world.db = s.world.db ∨
    Takes env permit s.world.db t.world.db :=
  (commits_of_step covered stepped).imp id fun ⟨_, request, rows, _, admitted, commits, grown⟩ =>
    ⟨request, rows, admitted, commits, grown⟩

/-- What every commit of a run keeps holds in every state of it. -/
theorem kept_of_runs {ok : State (machine env) → Action (machine env) → Prop} {I : Tables → Prop}
    (opening : w.Opening)
    (start : I w.db) (step : ∀ (s : State (machine env)) a p request rows, ok s a → CommitsFor p request s a →
      Commits env s.world.db request rows → s.world.db.Consistent → I s.world.db → I (s.world.db ++ rows))
    (runs : (machine env).Runs ok ((machine env).initial w) s) : I s.world.db := by
  induction runs with
  | refl => exact start
  | @tail s t runs stepped ih =>
    obtain ⟨a, allowed, stepped⟩ := stepped
    have covered := covers_all opening runs
    rcases commits_of_step covered stepped with same | ⟨p, request, rows, committed, _, commits, grown⟩
    · rwa [same]
    · rw [grown]
      exact step s a p request rows allowed committed commits covered.inv.consistent ih

theorem grows_of_step {a : Action (machine env)} (covered : (contract env permit).Covers Unused s)
    (stepped : (machine env).step s a = some t) : ∃ rows, t.world.db = s.world.db ++ rows := by
  rcases takes_of_step covered stepped with same | ⟨_, rows, _, _, grown⟩
  · exact ⟨{}, by simp [same]⟩
  · exact ⟨rows, grown⟩

theorem grows_of_runs {ok : State (machine env) → Action (machine env) → Prop} (opening : w.Opening)
    (reached : (machine env).Runs ok ((machine env).initial w) s) (later : (machine env).Runs ok s t) :
    ∃ rows, t.world.db = s.world.db ++ rows := by
  induction later with
  | refl => exact ⟨{}, by simp⟩
  | tail later stepped ih =>
    obtain ⟨a, _, stepped⟩ := stepped
    obtain ⟨rows, grown⟩ := ih
    obtain ⟨rows', grown'⟩ :=
      grows_of_step (covers_all opening (reached.trans later)) stepped
    exact ⟨rows ++ rows', by rw [grown', grown, Tables.append_assoc]⟩

theorem outcome_of_runs {ok : State (machine env) → Action (machine env) → Prop} (permit : Request → Prop)
    (admits : Admits ok permit) (opening : w.Opening)
    (runs : (machine env).Runs ok ((machine env).initial w) s) {p : ℕ}
    {proc : Proc (machine env)} {value : Value} (found : s.procs p = some proc) (returned : proc.rest = .ret value) :
    ∃ u : State (machine env), (machine env).Runs ok ((machine env).initial w) u ∧ (machine env).Runs ok u s ∧
      Outcome env permit proc.past u.world proc.request (.ret value) := by
  induction runs with
  | refl => cases found
  | @tail s t runs stepped ih =>
    have onestep := stepped
    obtain ⟨a, allowed, stepped⟩ := stepped
    have covered := covers permit admits opening runs
    have admitted : ∀ p request, a = .start p request → permit request := by
      intro p request same
      subst same
      exact admits s p request allowed
    rcases (sound env permit).finished_cases covered admitted stepped found (by rw [returned]; trivial) with
      before | ⟨outcome, _⟩ | ⟨_, failed⟩
    · obtain ⟨u, reached, later, outcome⟩ := ih before
      exact ⟨u, reached, later.tail onestep, outcome⟩
    · change Outcome env permit proc.past t.world proc.request proc.rest at outcome
      rw [returned] at outcome
      exact ⟨t, runs.tail onestep, .refl, outcome⟩
    · cases returned.symm.trans failed

/-- The interleaved service refines the ledger that takes one posting at a time. -/
theorem refines {ok : State (machine env) → Action (machine env) → Prop} (permit : Request → Prop)
    (admits : Admits ok permit) (opening : w.Opening) (runs : (machine env).Runs ok ((machine env).initial w) s) :
    Relation.ReflTransGen (Takes env permit) w.db s.world.db := by
  induction runs with
  | refl => exact .refl
  | tail runs stepped ih =>
    obtain ⟨a, _, stepped⟩ := stepped
    rcases takes_of_step (covers permit admits opening runs) stepped with same | takes
    · exact same ▸ ih
    · exact ih.tail takes

def answer (p : ℕ) (s : State (machine env)) : Option (Except PyError Value) :=
  match s.procs p with
  | none => none
  | some proc =>
    match (proc.rest : Code Value) with
    | .ret value => some (.ok value)
    | .raise error => some (.error error)
    | .call _ _ => none

theorem running_of_answer {p : ℕ} {proc : Proc (machine env)} (unanswered : (answer p s).isNone)
    (found : s.procs p = some proc) : ¬proc.rest.Finished := by
  obtain ⟨request, started, past, rest⟩ := proc
  cases rest with
  | ret value => simp [answer, found] at unanswered
  | raise error => simp [answer, found] at unanswered
  | call stmt next => exact id

theorem finished_of_answer {p : ℕ} {proc : Proc (machine env)} (answered : (answer p s).isSome)
    (found : s.procs p = some proc) : proc.rest.Finished := by
  obtain ⟨request, started, past, rest⟩ := proc
  cases rest with
  | ret value => trivial
  | raise error => trivial
  | call stmt next => simp [answer, found] at answered

theorem answer_eq_error {p : ℕ} {proc : Proc (machine env)} (found : s.procs p = some proc) {error : PyError}
    (answered : answer p s = some (.error error)) : proc.rest = .raise error := by
  obtain ⟨request, started, past, rest⟩ := proc
  cases rest <;> simp [answer, found] at answered
  cases answered
  rfl

theorem answer_eq_ok {p : ℕ} {proc : Proc (machine env)} (found : s.procs p = some proc) {value : Value}
    (answered : answer p s = some (.ok value)) : proc.rest = .ret value := by
  obtain ⟨request, started, past, rest⟩ := proc
  cases rest <;> simp [answer, found] at answered
  cases answered
  rfl

theorem nextStmt_cases {p : ℕ} {stmt : Stmt} (next : nextStmt p s = some stmt) :
    ∃ proc rest, s.procs p = some proc ∧ proc.rest = .call stmt rest := by
  unfold nextStmt at next
  split at next
  · cases next
  · rename_i proc found
    split at next
    · rename_i stmt' rest call
      cases next
      exact ⟨proc, rest, found, call⟩
    · cases next

/-- What keeps a statement of session `p` from being executed: another open transaction holds the row lock or the
key that it needs. (Or `uuid4` has returned every value there is.) -/
def Waits (env : Deployment) (p : ℕ) (w : World) : Stmt → Prop
  | .lockAccount x => ∃ holder ∈ w.rowLocks x, holder.1 ≠ p
  | .insertEntry _ x _ =>
    env.foreignKeyLocks ∧ ∃ holder ∈ w.rowLocks x, holder.1 ≠ p ∧ holder.2 = .forUpdate
  | .insertTransaction transaction =>
    ∃ row key q, transaction.stored = some row ∧ row.idempotencyKey = some key ∧
      w.keyLocks key = some q ∧ q ≠ p
  | .uuid4 => ∀ value, value ∈ w.issued.map (·.2) ∨ value ∈ w.db.ids
  | _ => False

theorem enabled_or_waits (valid : w.Valid) (p : ℕ) (stmt : Stmt) :
    (∃ choice result w', exec env p stmt choice w = some (result, w')) ∨ Waits env p w stmt := by
  cases stmt with
  | lockAccount x =>
    by_cases granted : ∀ holder ∈ w.rowLocks x, holder.1 = p
    · exact .inl ⟨.proceed, _, _, if_pos granted⟩
    · push Not at granted
      exact .inr granted
  | uuid4 =>
    by_cases free : ∃ value, ¬(value ∈ w.issued.map (·.2) ∨ value ∈ w.db.ids)
    · obtain ⟨value, unused⟩ := free
      exact .inl ⟨.uuid value, _, _, if_neg unused⟩
    · exact .inr fun value => by_contra fun unused => free ⟨value, unused⟩
  | insertTransaction transaction =>
    cases stored : transaction.stored with
    | none => exact .inl ⟨.proceed, .error .dataError, w, by simp [exec, stored]⟩
    | some row =>
    cases keyed : row.idempotencyKey with
    | none => exact .inl ⟨.proceed, .ok (), w.write p { transactions := [row] }, by simp [exec, stored, keyed]⟩
    | some key =>
      cases holder : w.keyLocks key with
      | none =>
        refine .inl ⟨.proceed, ?_⟩
        simp only [exec, stored, keyed, holder]
        split_ifs <;> exact ⟨_, _, rfl⟩
      | some q =>
        by_cases mine : q = p
        · subst mine
          have pending := valid.keyPending holder
          have visible : (w.visible q).transactions.any (·.idempotencyKey = some key) := by
            simp only [World.visible, Tables.append_transactions, List.any_append, Bool.or_eq_true]
            refine .inr ?_
            simpa [Tables.keys] using pending
          exact .inl ⟨.proceed, .error .integrityError, w, by simp [exec, stored, keyed, visible]⟩
        · exact .inr ⟨row, key, q, stored, keyed, holder, mine⟩
  | insertEntry transactionId x amount =>
    cases stored : Numeric.cast 20 2 amount with
    | none => exact .inl ⟨.proceed, .error .dataError, w, by simp [exec, stored]⟩
    | some n =>
      by_cases blocked : env.foreignKeyLocks ∧ ∃ holder ∈ w.rowLocks x, holder.1 ≠ p ∧ holder.2 = .forUpdate
      · exact .inr blocked
      · have granted : env.foreignKeyLocks → ∀ holder ∈ w.rowLocks x, holder.1 = p ∨
          holder.2 = .keyShare := by
          intro locks holder member
          by_contra neither
          rw [not_or] at neither
          refine blocked ⟨locks, holder, member, neither.1, ?_⟩
          cases mode : holder.2 with
          | forUpdate => rfl
          | keyShare => exact absurd mode neither.2
        refine .inl ⟨.proceed, ?_⟩
        simp only [exec, stored]
        split_ifs with _ locks refused
        · exact ⟨_, _, rfl⟩
        · exact ⟨_, _, rfl⟩
        · exact absurd (granted locks) refused
        · exact ⟨_, _, rfl⟩
  | insertAccount account =>
    refine .inl ⟨.proceed, ?_⟩
    simp only [exec]
    split <;> exact ⟨_, _, rfl⟩
  | _ => exact .inl ⟨.proceed, _, _, rfl⟩

/-! A small bank for the examples. -/

def sampleDigest (text : String) : String :=
  if text = "00000000-0000-0000-0000-000000000002:00000000-0000-0000-0000-000000000003:100.00" then
    "6d645be5c118517f5d77cd5d22c8407e2453ef6dddb79bc011b4802b78eb2ced"
  else "digest of " ++ text

def sample : Deployment where
  sha256 := sampleDigest
  upper := String.toUpper
  isprintable c := 32 ≤ c.toNat ∧ c.toNat < 127
  amountNonzero := true
  foreignKeyLocks := true

def systemCash : Account := ⟨1, "SYSTEM_CASH", .system, "INR", .active⟩
def alice : Account := ⟨2, "Alice", .savings, "INR", .active⟩
def bob : Account := ⟨3, "Bob", .savings, "INR", .active⟩

/-- A deposit of 100.00 that Alice has made before. -/
def savings : Posting where
  transaction := ⟨4, .deposit, .posted, some "Deposit", none, none, 0⟩
  payer := 1
  payee := 2
  debit := ⟨-10000, by decide⟩
  credit := ⟨10000, by decide⟩
  event := createOutboxEvent 5 4 "DEPOSIT_POSTED"
    (accountPayload ⟨4, .deposit, .posted, some "Deposit", none, none, 0⟩ alice ⟨false, 10000, -2⟩) 0

def bank : World where
  db := { accounts := [systemCash, alice, bob] } ++ savings.rows
  sessions _ := {}
  rowLocks _ := []
  keyLocks _ := none
  clock := 0
  issued := []
  redis _ := none

theorem bank_opening : bank.Opening where
  sessions _ := rfl
  rowLocks _ := rfl
  keyLocks _ := rfl
  issuedOnce := List.nodup_nil
  consistent := ⟨by decide, by decide, by decide, by decide, by decide, by decide, by decide⟩

theorem alice_not_cash {db : Tables} (accounts : db.accounts = bank.db.accounts) : ¬db.IsSystemCash 2 := by
  rintro ⟨account, member, same, cash⟩
  rw [accounts] at member
  simp only [bank, Tables.append_accounts, savings, Posting.rows, List.append_nil, List.mem_cons, List.not_mem_nil,
    or_false] at member
  rcases member with rfl | rfl | rfl <;> revert same cash <;> decide

def oneRupee : Amount := ⟨⟨false, 100, -2⟩, rfl, by decide⟩
def hundred : Amount := ⟨⟨false, 10000, -2⟩, rfl, by decide⟩

def deposit (p : ℕ) (amount : Amount) : List (Action (machine sample)) :=
  [.start p (.createDeposit 2 amount), .step p .proceed, .step p .proceed, .step p (.uuid 10), .step p .proceed,
    .step p .proceed, .step p .proceed, .step p .proceed, .step p (.uuid 11), .step p .proceed, .step p .proceed,
    .step p .proceed, .step p .proceed, .step p .proceed]

/-- Two withdrawals of Alice: process `q` has found her account and waits for its lock until process `p` commits. -/
def racingWithdrawals (p q : ℕ) (amount : Amount) (id eventId : UUID) : List (Action (machine sample)) :=
  [.start p (.createWithdrawal 2 amount), .step p .proceed, .step p .proceed, .start q (.createWithdrawal 2 amount),
    .step q .proceed, .step p .proceed, .step p .proceed, .step p (.uuid id), .step p .proceed, .step p .proceed,
    .step p .proceed, .step p .proceed, .step p (.uuid eventId), .step p .proceed, .step p .proceed, .step p .proceed,
    .step q .proceed, .step q .proceed]

def raisedBy (p : ℕ) (s : State (machine sample)) : Option PyError :=
  match answer p s with
  | some (.error error) => some error
  | _ => none

end LedgerFlow.Ledger
