import LedgerFlow.Concurrency.Sequel
import LedgerFlow.Ledger.Cache
import LedgerFlow.Ledger.Tracking

/-! Where a balance comes from: what `get_balance` caches and returns was the committed balance of the account at some
moment, whatever runs next to it and whichever calls of Redis fail. -/

namespace LedgerFlow.Ledger
open Accounts Outbox Concurrency

/-- At some moment of the run up to `s` the account existed and `d` was the sum of its committed entries. -/
def Was {env : Deployment} (w : World) (s : State (machine env)) (x : UUID) (d : Decimal) : Prop :=
  ∃ u : State (machine env), (machine env).Runs (machine env).anything ((machine env).initial w) u ∧
    (machine env).Runs (machine env).anything u s ∧ x ∈ u.world.db.accounts.map (·.accountId) ∧
    d.toRat = u.world.db.balance x / 100

/-- Every balance that `get_balance` has returned, and every cached one, was the committed balance of its account. -/
structure InventsNothing {env : Deployment} (w : World) (s : State (machine env)) : Prop where
  returned : ∀ p x value, requestOf p s = some (.getBalance x) → answer p s = some (.ok value) →
    ∃ d, value = .balance d ∧ Was w s x d
  cached : ∀ x text, s.world.redis (balanceCacheKey x) = some text →
    ∃ d, Decimal.ofStr text = some (.finite d) ∧ Was w s x d

/-- The rows that a call has found by the id of an account, and the last balance it has read of an account that it had
found or that was cached, with the key for it. -/
structure Sight where
  found : List Account := []
  read : Option (String × Decimal) := none

def Sight.after (φ : Sight) : (s : Stmt) → s.Result → Sight
  | .selectAccount _, rows => { φ with found := rows }
  | .redisGet key, .ok (some text) =>
    match Decimal.ofStr text with
    | some (.finite d) => { φ with read := some (key, d) }
    | _ => φ
  | .sumEntries x, total =>
    if x ∈ φ.found.map (·.accountId) then { φ with read := some (balanceCacheKey x, total) } else φ
  | _, _ => φ

def sight (env : Deployment) : Protocol (machine env) Sight where
  start := {}
  after := Sight.after
  allowed request φ stmt := ∀ x key value, request = .getBalance x → stmt = .redisSet key value →
    ∃ d, φ.read = some (key, d) ∧ value = d.str

def Tells (request : Request) (φ : Sight) (value : Value) : Prop :=
  ∀ x, request = .getBalance x → ∃ d, value = .balance d ∧ φ.read = some (balanceCacheKey x, d)

def Caches : Stmt → Prop
  | .redisSet _ _ => True
  | _ => False

variable {env : Deployment} {w : World} {s t : State (machine env)} {x : UUID} {d : Decimal}
  {trace : List (Executed language)}

theorem tells_computeBalance (x : UUID) (φ : Sight) : (sight env).Follows (.getBalance x) (Tells (.getBalance x))
    (fun _ _ => True) φ (computeBalance x >>= fun balance => .ret (.balance balance)) := by
  refine ⟨fun _ _ _ _ other => (by cases other), fun rows returned => ?_⟩
  rcases rows with _ | ⟨account, _ | ⟨_, _⟩⟩
  · trivial
  · have same : account.accountId = x := returns_selectAccount returned account List.mem_cons_self
    refine ⟨fun _ _ _ _ other => (by cases other), fun (total : Decimal) _ => ?_⟩
    have read : (Sight.after (φ.after (.selectAccount x) [account]) (.sumEntries x) total).read =
        some (balanceCacheKey x, total) := by
      simp [Sight.after, same]
    simp only [decimalOf_eq]
    refine ⟨fun y key value asked written => ?_, fun result _ => ?_⟩
    · cases written
      exact ⟨total, read, rfl⟩
    · have told : Tells (.getBalance x) (Sight.after (φ.after (.selectAccount x) [account]) (.sumEntries x) total)
          (.balance total) := by
        intro y asked
        cases asked
        exact ⟨total, rfl, read⟩
      cases result <;> exact told
  · trivial

theorem tells_getBalance (x : UUID) : (sight env).Follows (.getBalance x) (Tells (.getBalance x)) (fun _ _ => True) {}
    (body env (.getBalance x)) := by
  refine ⟨fun _ _ _ _ other => (by cases other), fun result _ => ?_⟩
  rcases result with error | _ | text
  · exact tells_computeBalance x _
  · exact tells_computeBalance x _
  · rcases parsed : Decimal.ofStr text with _ | (d | negative | _) <;> simp only [parsed]
    · exact tells_computeBalance x _
    · intro y asked
      cases asked
      exact ⟨d, rfl, by simp [sight, Sight.after, parsed]⟩
    · exact tells_computeBalance x _
    · exact tells_computeBalance x _

theorem tells_body (request : Request) :
    (sight env).Follows request (Tells request) (fun _ _ => True) {} (body env request) := by
  cases request with
  | getBalance x => exact tells_getBalance x
  | _ =>
    apply Protocol.Follows.free
    · intro φ stmt x key value asked
      cases asked
    · intro φ value x asked
      cases asked
    · exact fun _ _ => trivial

abbrev Cacheless {α : Type} (prog : Code α) : Prop := prog.Never (L := language) Caches

namespace Cacheless
variable {α β : Type}

theorem scalarOneOrNone {rows : List α} : Cacheless (Ledger.scalarOneOrNone rows) := by
  rcases rows with _ | ⟨row, _ | ⟨other, rest⟩⟩
  · trivial
  · trivial
  · trivial

theorem checked {result : Except PyError α} : Cacheless (Ledger.checked result) := by
  cases result with
  | ok value => trivial
  | error error => trivial

theorem lockRows {rows : List Account} : Cacheless (lockAll rows >>= fun _ => .ret rows) := by
  apply Prog.Never.bind
  · induction rows with
    | nil => trivial
    | cons account others ih => exact ⟨id, fun _ => ih⟩
  · exact fun _ => trivial

theorem flushTransaction {transactionType : TransactionType} {reference : String} {key hash : Option String} :
    Cacheless (flushTransaction transactionType reference key hash) := by
  refine ⟨id, fun transactionId => ⟨id, fun createdAt => ⟨id, fun result => ?_⟩⟩⟩
  apply Prog.Never.bind checked
  exact fun _ => trivial

theorem insertEntry {transactionId x : UUID} {amount : Decimal} : Cacheless (insertEntry transactionId x amount) :=
  ⟨id, fun _ => checked⟩

theorem posting {transactionId x y aggregateId : UUID} {debit credit : Decimal} {eventType : String} {payload : Json}
    {next : Code β} (rest : Cacheless next) : Cacheless (do
      Ledger.insertEntry transactionId x debit
      Ledger.insertEntry transactionId y credit
      flushOutboxEvent aggregateId eventType payload
      next) := by
  apply Prog.Never.bind insertEntry
  intro _
  apply Prog.Never.bind insertEntry
  intro _
  exact ⟨id, fun _ => ⟨id, fun _ => ⟨id, fun _ => rest⟩⟩⟩

theorem invalidateBalance {x : UUID} : Cacheless (invalidateBalance x) := ⟨id, fun _ => checked⟩

theorem bestEffort {prog : Code Unit} (inner : Cacheless prog) : Cacheless (bestEffort prog) :=
  Prog.Never.attempt inner fun _ => trivial

theorem createAccount (created : CreateAccountRequest) : Cacheless (createAccount env created) := by
  unfold Ledger.createAccount
  cases AccountType.ofStr created.accountType with
  | none => trivial
  | some accountType =>
    refine ⟨id, fun accountId => ⟨id, fun result => ?_⟩⟩
    apply Prog.Never.bind checked
    exact fun _ => ⟨id, fun _ => ⟨id, fun _ => trivial⟩⟩

theorem createDeposit (x : UUID) (amount : Decimal) : Cacheless (createDeposit x amount) := by
  refine ⟨id, fun rows => ?_⟩
  apply Prog.Never.bind scalarOneOrNone
  intro found
  cases found with
  | none => trivial
  | some account =>
    apply Prog.Never.ite
    · trivial
    · refine ⟨id, fun rows => ?_⟩
      apply Prog.Never.bind scalarOneOrNone
      intro found
      cases found with
      | none => trivial
      | some system =>
        apply Prog.Never.bind flushTransaction
        intro transaction
        cases amount.neg with
        | none => trivial
        | some debit =>
          simp only
          apply posting
          refine ⟨id, fun _ => ⟨id, fun _ => ?_⟩⟩
          apply Prog.Never.bind (bestEffort invalidateBalance)
          exact fun _ => trivial

theorem createWithdrawal (x : UUID) (amount : Decimal) : Cacheless (createWithdrawal x amount) := by
  refine ⟨id, fun rows => ?_⟩
  apply Prog.Never.bind lockRows
  intro rows
  apply Prog.Never.bind scalarOneOrNone
  intro found
  cases found with
  | none => trivial
  | some account =>
    apply Prog.Never.ite
    · trivial
    · refine ⟨id, fun total => ?_⟩
      simp only [decimalOf_eq]
      apply Prog.Never.ite
      · trivial
      · refine ⟨id, fun rows => ?_⟩
        apply Prog.Never.bind scalarOneOrNone
        intro found
        cases found with
        | none => trivial
        | some system =>
          apply Prog.Never.bind flushTransaction
          intro transaction
          cases amount.neg with
          | none => trivial
          | some debit =>
            simp only
            apply posting
            refine ⟨id, fun _ => ⟨id, fun _ => ?_⟩⟩
            apply Prog.Never.bind (bestEffort invalidateBalance)
            exact fun _ => trivial

theorem replay {hash : String} {existing : Transaction} : Cacheless (replay hash existing) := by
  apply Prog.Never.ite
  · trivial
  · trivial

theorem recoverTransfer {key hash : String} {error : PyError} : Cacheless (recoverTransfer key hash error) := by
  cases error with
  | integrityError =>
    refine ⟨id, fun _ => ⟨id, fun rows => ?_⟩⟩
    apply Prog.Never.bind scalarOneOrNone
    intro found
    cases found with
    | none => trivial
    | some existing => exact replay
  | _ => trivial

theorem beginNested {body : Code α} (inner : Cacheless body) : Cacheless (beginNested body) := by
  refine ⟨id, fun _ => ?_⟩
  change Cacheless (body.attempt _ >>= _)
  apply Prog.Never.bind
  · apply Prog.Never.attempt inner
    exact fun _ => ⟨id, fun _ => trivial⟩
  · exact fun _ => ⟨id, fun _ => trivial⟩

theorem postTransfer {a b : UUID} {amount : Decimal} {key hash currency : String} :
    Cacheless (postTransfer a b amount key hash currency) := by
  apply Prog.Never.bind flushTransaction
  intro transaction
  cases amount.neg with
  | none => trivial
  | some debit =>
    simp only
    apply posting
    trivial

theorem createTransfer (a b : UUID) (amount : Decimal) (key : String) :
    Cacheless (createTransfer env a b amount key) := by
  refine ⟨id, fun rows => ?_⟩
  apply Prog.Never.bind scalarOneOrNone
  intro existing
  cases existing with
  | some existing => exact replay
  | none =>
    apply Prog.Never.ite
    · trivial
    · refine ⟨id, fun rows => ?_⟩
      apply Prog.Never.bind lockRows
      intro accounts
      apply Prog.Never.ite
      · trivial
      · cases accounts.find? (·.accountId = a) with
        | none => trivial
        | some source =>
        cases accounts.find? (·.accountId = b) with
        | none => trivial
        | some destination =>
        apply Prog.Never.ite
        · trivial
        apply Prog.Never.ite
        · trivial
        apply Prog.Never.ite
        · trivial
        refine ⟨id, fun total => ?_⟩
        simp only [decimalOf_eq]
        apply Prog.Never.ite
        · trivial
        apply Prog.Never.attempt
        · apply Prog.Never.bind (beginNested postTransfer)
          intro transaction
          refine ⟨id, fun _ => ⟨id, fun _ => ?_⟩⟩
          apply Prog.Never.bind (bestEffort (Prog.Never.bind invalidateBalance fun _ => invalidateBalance))
          exact fun _ => trivial
        · exact fun _ => recoverTransfer

theorem getBalanceAt (x : UUID) (timestamp : Timestamp) : Cacheless (getBalanceAt x timestamp) := by
  refine ⟨id, fun rows => ?_⟩
  apply Prog.Never.bind scalarOneOrNone
  intro found
  cases found with
  | none => trivial
  | some account =>
    refine ⟨id, fun total => ?_⟩
    simp only [decimalOf_eq]
    trivial

theorem body {request : Request} (other : ∀ x, request ≠ .getBalance x) :
    Cacheless (Ledger.body env request) := by
  cases request with
  | createAccount created => exact Prog.Never.bind (createAccount created) fun _ => trivial
  | createDeposit x amount => exact Prog.Never.bind (createDeposit x amount.value) fun _ => trivial
  | createWithdrawal x amount => exact Prog.Never.bind (createWithdrawal x amount.value) fun _ => trivial
  | createTransfer a b amount key => exact Prog.Never.bind (createTransfer a b amount.value key) fun _ => trivial
  | getBalance x => exact absurd rfl (other x)
  | getBalanceAt x timestamp => exact Prog.Never.bind (getBalanceAt x timestamp) fun _ => trivial

end Cacheless

theorem Was.step {a : Action (machine env)} (was : Was w s x d)
    (stepped : (machine env).step s a = some t) : Was w t x d := by
  obtain ⟨u, reached, later, account, sum⟩ := was
  exact ⟨u, reached, later.tail ⟨a, trivial, stepped⟩, account, sum⟩

theorem Was.now (runs : (machine env).Runs (machine env).anything ((machine env).initial w) s)
    (account : x ∈ s.world.db.accounts.map (·.accountId))
    (sum : d.toRat = s.world.db.balance x / 100) : Was w s x d :=
  ⟨s, runs, .refl, account, sum⟩

/-- Every cached balance, and every balance that a call has read, was the committed one. -/
structure Sourced (w : World) (trace : List (Executed language)) (s : State (machine env)) : Prop where
  cached : ∀ x text, s.world.redis (balanceCacheKey x) = some text →
    ∃ d, Decimal.ofStr text = some (.finite d) ∧ Was w s x d
  found : ∀ p, ∀ account ∈ ((sight env).phase p trace).found, account ∈ s.world.db.accounts
  read : ∀ p x d, ((sight env).phase p trace).read = some (balanceCacheKey x, d) → Was w s x d

section Runs
variable {p : ℕ} {proc : Proc (machine env)} {stmt : Stmt} {next : stmt.Result → Code Value} {choice : Choice}
  {result : stmt.Result} {w' : World}

theorem cacheless_of_runs (runs : (machine env).Runs (machine env).anything ((machine env).initial w) s)
    (found : s.procs p = some proc) (other : ∀ x, proc.request ≠ .getBalance x) : Cacheless proc.rest := by
  apply runs.programs (Φ := fun (request : Request) prog => (∀ x, request ≠ .getBalance x) → Cacheless prog)
    _ _ _ p proc found other
  · exact fun request other => Cacheless.body other
  · exact fun request stmt next result _ never other => (never other).2 result
  · exact fun _ _ => trivial

theorem written_of_traces (traces : (machine env).Traces (machine env).anything ((machine env).initial w) trace s)
    (found : s.procs p = some proc) {key value : String} {next : Except PyError Unit → Code Value}
    (rest : proc.rest = .call (.redisSet key value) next) :
    ∃ d, ((sight env).phase p trace).read = some (key, d) ∧ value = d.str := by
  have follows := Protocol.follows_of_traces (Φ := fun _ => True) (Q := Tells) (fun _ _ _ _ => trivial)
    (fun request _ => tells_body request) (fun _ => trivial) traces found
  by_cases query : ∃ x, proc.request = .getBalance x
  · obtain ⟨x, asked⟩ := query
    rw [rest] at follows
    exact follows.1 x key value asked rfl
  · have never := cacheless_of_runs traces.runs found fun x asked => query ⟨x, asked⟩
    rw [rest] at never
    exact absurd trivial never.1

theorem Sourced.after (sourced : Sourced w trace s) (opening : w.Opening)
    (traces : (machine env).Traces (machine env).anything ((machine env).initial w) trace s)
    (found : s.procs p = some proc) (rest : proc.rest = .call stmt next)
    (executed : exec env p stmt choice s.world = some (result, w')) :
    (∀ account ∈ (Sight.after ((sight env).phase p trace) stmt result).found, account ∈ s.world.db.accounts) ∧
    ∀ x d, (Sight.after ((sight env).phase p trace) stmt result).read = some (balanceCacheKey x, d) →
    Was w s x d := by
  have earlier := sourced.found p
  have read := sourced.read p
  have tracks := tracks_of_traces opening traces (Protocol.open_of_call found rest)
  have allowed := allowed_of_traces traces found rest
  generalize (sight env).phase p trace = φ at earlier read
  cases stmt with
  | selectAccount x =>
    refine ⟨fun account member => ?_, read⟩
    cases executed
    rw [tracks.visible allowed.1] at member
    exact (List.mem_filter.1 member).1
  | redisGet key =>
    cases choice with
    | redisDown =>
      cases executed
      exact ⟨earlier, read⟩
    | proceed | uuid =>
      cases executed
      cases hit : World.redis s.world key with
      | none => exact ⟨earlier, read⟩
      | some text =>
        rcases parsed : Decimal.ofStr text with _ | (d | negative | _) <;> simp only [Sight.after, parsed]
        · exact ⟨earlier, read⟩
        · refine ⟨earlier, fun x d' same => ?_⟩
          cases same
          obtain ⟨d', parsed', was⟩ := sourced.cached x text hit
          cases parsed.symm.trans parsed'
          exact was
        · exact ⟨earlier, read⟩
        · exact ⟨earlier, read⟩
  | sumEntries y =>
    cases executed
    simp only [Sight.after]
    split
    · rename_i known
      refine ⟨earlier, fun x d same => ?_⟩
      obtain ⟨account, member, owner⟩ := List.mem_map.1 known
      simp only [Option.some.injEq, Prod.mk.injEq] at same
      obtain ⟨key, total⟩ := same
      cases balanceCacheKey_injective key
      apply Was.now traces.runs
      · exact List.mem_map.2 ⟨account, earlier account member, owner⟩
      · rw [← total, tracks.visible allowed, Tables.total_toRat]
    · exact ⟨earlier, read⟩
  | _ => exact ⟨earlier, read⟩

/-- A balance in the cache was there before the step, or a call that had read it has put it there. -/
theorem Sourced.cached_of_step {a : Action (machine env)} (sourced : Sourced w trace s)
    (traces : (machine env).Traces (machine env).anything ((machine env).initial w) trace s)
    (stepped : (machine env).step s a = some t) {text : String}
    (hit : t.world.redis (balanceCacheKey x) = some text) :
    ∃ d, Decimal.ofStr text = some (.finite d) ∧ Was w s x d := by
  rcases Machine.step_cases stepped with ⟨q, request, rfl, fresh, rfl⟩ |
    ⟨q, choice, proc, stmt, next, result, w', rfl, found, rest, executed, rfl⟩ |
    ⟨q, proc, rfl, found, running, rfl⟩ | ⟨q, proc, rfl, found, finished, rfl⟩ | ⟨e, w', rfl, ticked, rfl⟩
  · exact sourced.cached x text hit
  · rcases exec_redis executed with same | ⟨key, value, rfl, rfl⟩ | ⟨key, rfl, rfl⟩
    · apply sourced.cached x text
      rwa [← same]
    · by_cases mine : balanceCacheKey x = key
      · subst mine
        simp only [Function.update_self, Option.some.injEq] at hit
        obtain ⟨d, read, written⟩ := written_of_traces traces found rest
        exact ⟨d, by rw [← hit, written, Decimal.ofStr_str], sourced.read q x d read⟩
      · exact sourced.cached x text (by simpa [Function.update_of_ne mine] using hit)
    · by_cases mine : balanceCacheKey x = key
      · subst mine
        simp at hit
      · exact sourced.cached x text (by simpa [Function.update_of_ne mine] using hit)
  · exact sourced.cached x text hit
  · exact sourced.cached x text hit
  · cases ticked
    exact sourced.cached x text hit

theorem Sourced.sight_of_step {a : Action (machine env)} (sourced : Sourced w trace s) (opening : w.Opening)
    (traces : (machine env).Traces (machine env).anything ((machine env).initial w) trace s)
    (stepped : (machine env).step s a = some t) (p : ℕ) :
    let φ := (sight env).phase p (((machine env).executed s a).toList ++ trace)
    (∀ account ∈ φ.found, account ∈ s.world.db.accounts) ∧
      ∀ x d, φ.read = some (balanceCacheKey x, d) → Was w s x d := by
  by_cases mine : ∃ choice, a = .step p choice
  · obtain ⟨choice, same⟩ := mine
    subst same
    obtain ⟨proc, stmt, next, result, w', found, rest, executed, rfl⟩ := Machine.step_own stepped
    rw [Protocol.phase_of_own found rest executed]
    exact sourced.after opening traces found rest executed
  · rw [Protocol.phase_of_other fun choice same => mine ⟨choice, same⟩]
    exact ⟨sourced.found p, sourced.read p⟩

theorem sourced_of_traces (opening : w.Opening)
    (start : ∀ x text, w.redis (balanceCacheKey x) = some text →
      x ∈ w.db.accounts.map (·.accountId) ∧ w.db.Shows x text)
    (traces : (machine env).Traces (machine env).anything ((machine env).initial w) trace s) : Sourced w trace s := by
  induction traces with
  | refl =>
    refine ⟨fun x text hit => ?_, fun p account member => ?_, fun p x d read => ?_⟩
    · obtain ⟨account, d, parsed, sum⟩ := start x text hit
      exact ⟨d, parsed, .now .refl account sum⟩
    · cases member
    · cases read
  | @tail trace s t a run _ stepped ih =>
    obtain ⟨rows, grown⟩ := grows_of_step (covers_all opening run.runs) stepped
    have sight := ih.sight_of_step opening run stepped
    refine ⟨fun x text hit => ?_, fun p account member => ?_, fun p x d read => ?_⟩
    · obtain ⟨d, parsed, was⟩ := ih.cached_of_step run stepped hit
      exact ⟨d, parsed, was.step stepped⟩
    · rw [grown]
      exact List.mem_append_left _ ((sight p).1 account member)
    · exact ((sight p).2 x d read).step stepped

end Runs

theorem never_invented (opening : w.Opening)
    (start : ∀ x text, w.redis (balanceCacheKey x) = some text →
      x ∈ w.db.accounts.map (·.accountId) ∧ w.db.Shows x text)
    (runs : (machine env).Runs (machine env).anything ((machine env).initial w) s) : InventsNothing w s := by
  obtain ⟨trace, traces⟩ := Machine.Runs.traces runs
  have sourced := sourced_of_traces opening start traces
  refine ⟨fun p x value asked returned => ?_, sourced.cached⟩
  cases found : s.procs p with
  | none => simp [answer, found] at returned
  | some proc =>
    have rest := answer_eq_ok found returned
    have request : proc.request = .getBalance x := Option.some.inj ((requestOf_eq found).symm.trans asked)
    have follows := Protocol.follows_of_traces (Φ := fun _ => True) (Q := Tells) (fun _ _ _ _ => trivial)
      (fun request _ => tells_body request) (fun _ => trivial) traces found
    rw [rest] at follows
    obtain ⟨d, same, read⟩ := follows x request
    exact ⟨d, same, sourced.read p x d read⟩

/-- A query that has summed the balance before a deposit returns and caches that sum after the deposit. -/
theorem never_invented_sample : ∃ s : State (machine sample), (answer 0 s).isSome ∧
    s.world.redis (balanceCacheKey 2) = some "100.00" ∧ s.world.db.balance 2 = 10100 ∧ InventsNothing bank s := by
  have executed : ((machine sample).run (fun _ _ => true) ((machine sample).initial bank)
      readAroundDeposit).map (fun s =>
      ((answer 0 s).isSome, (s.world : World).redis (balanceCacheKey 2), (s.world : World).db.balance 2)) =
      some (true, some "100.00", 10100) := by
    decide +kernel
  obtain ⟨s, runs, observed⟩ := Machine.Runs.of_observed _ (fun _ _ _ => trivial) executed
  simp only [Prod.mk.injEq] at observed
  obtain ⟨answered, hit, balance⟩ := observed
  exact ⟨s, answered, hit, balance, never_invented bank_opening (fun x text hit => by simp [bank] at hit) runs⟩

end LedgerFlow.Ledger
