import LedgerFlow.Concurrency.Diary
import LedgerFlow.Concurrency.Fairness
import LedgerFlow.Ledger.Deadlock
import LedgerFlow.Ledger.Serial

/-! The calls come to their end: as long as no transfer names the system account, they end in every fair run,
and all of them can be brought to their end from wherever they are. -/

namespace LedgerFlow.Ledger
open Accounts Outbox Concurrency World

def Few : (stmt : Stmt) → stmt.Result → Prop
  | .selectAccount _, rows => rows.length ≤ 1
  | .selectAccountsIn ids, rows => rows.length ≤ ids.length
  | _, _ => True

/-- Where the lookups find few rows, the program executes this many statements at most. -/
abbrev Brief {α : Type} (prog : Code α) (n : ℕ) : Prop := prog.Within (L := language) Few n

namespace Brief
variable {α : Type} {n : ℕ}

theorem lockRows {rows : List Account} {next : List Account → Code α} {k : ℕ} (few : rows.length ≤ k)
    (rest : Brief (next rows) n) : Brief ((lockAll rows >>= fun _ => .ret rows) >>= next) (n + k) := by
  rw [Prog.bind_assoc]
  suffices all : ∀ others : List Account, Brief (lockAll others >>= fun _ => next rows) (n + others.length) from
    (all rows).mono (by omega)
  intro others
  induction others with
  | nil => exact rest
  | cons account others ih => exact .call fun _ _ => ih

theorem raises {error : PyError} : Brief (.raise error : Code α) n := trivial

theorem ite {c : Prop} [Decidable c] {x y : Code α} (yes : Brief x n) (no : Brief y n) :
    Brief (if c then x else y) n := by
  split_ifs
  · exact yes
  · exact no

theorem createAccount (env : Deployment) (created : CreateAccountRequest) : Brief (createAccount env created) 4 := by
  unfold Ledger.createAccount
  cases AccountType.ofStr created.accountType with
  | none => trivial
  | some accountType =>
    apply Prog.Within.call
    intro accountId _
    apply Prog.Within.call
    intro result _
    cases result with
    | error error => trivial
    | ok _ => exact .call fun _ _ => .call fun _ _ => trivial

theorem checked {result : Except PyError Unit} {next : Unit → Code α} (rest : Brief (next ()) n) :
    Brief (Ledger.checked result >>= next) n := by
  cases result with
  | error error => trivial
  | ok _ => exact rest

theorem posting {transactionType : TransactionType} {reference : String} {x y z : UUID} {amount : Decimal}
    {eventType : String} {payload : Transaction → Json} {value : Transaction → α} : Brief (do
      let transaction ← flushTransaction transactionType reference none none
      match amount.neg with
      | none => .raise .overflow
      | some debit =>
        insertEntry transaction.transactionId x debit
        insertEntry transaction.transactionId y amount
        flushOutboxEvent transaction.transactionId eventType (payload transaction)
        commit
        let transaction ← refresh transaction
        bestEffort (invalidateBalance z)
        .ret (value transaction)) 11 := by
  apply Prog.Within.call
  intro transactionId _
  apply Prog.Within.call
  intro createdAt _
  apply Prog.Within.call
  intro inserted _
  change Brief ((Ledger.checked inserted >>= _) >>= _) 8
  rw [Prog.bind_assoc]
  apply checked
  simp only [Prog.ret_bind]
  cases amount.neg with
  | none => trivial
  | some debit =>
    apply Prog.Within.call
    intro debited _
    apply checked
    apply Prog.Within.call
    intro credited _
    apply checked
    apply Prog.Within.call
    intro eventId _
    apply Prog.Within.call
    intro eventAt _
    apply Prog.Within.call
    intro announced _
    apply Prog.Within.call
    intro committed _
    apply Prog.Within.call
    intro refreshed _
    apply Prog.Within.call
    intro result _
    cases result <;> trivial

theorem createDeposit (x : UUID) (amount : Decimal) : Brief (createDeposit x amount) 13 := by
  apply Prog.Within.call
  intro rows _
  rcases rows with _ | ⟨account, _ | ⟨_, _⟩⟩
  · trivial
  · apply ite
    · trivial
    · apply Prog.Within.call
      intro rows _
      rcases rows with _ | ⟨system, _ | ⟨_, _⟩⟩
      · trivial
      · exact posting
      · trivial
  · trivial

theorem createWithdrawal (x : UUID) (amount : Decimal) : Brief (createWithdrawal x amount) 15 := by
  apply Prog.Within.call
  intro rows few
  apply lockRows (k := 1) few
  rcases rows with _ | ⟨account, _ | ⟨_, _⟩⟩
  · trivial
  · apply ite
    · trivial
    · apply Prog.Within.call
      intro total _
      simp only [decimalOf_eq]
      apply ite
      · trivial
      · apply Prog.Within.call
        intro rows _
        rcases rows with _ | ⟨system, _ | ⟨_, _⟩⟩
        · trivial
        · exact posting
        · trivial
  · trivial

theorem recoverTransfer {key hash : String} {error : PyError} : Brief (recoverTransfer key hash error) 2 := by
  cases error with
  | integrityError =>
    apply Prog.Within.call
    intro _ _
    apply Prog.Within.call
    intro rows _
    rcases rows with _ | ⟨existing, _ | ⟨_, _⟩⟩
    · trivial
    · exact ite raises trivial
    · trivial
  | _ => trivial

theorem leaves {key hash : String} {error : PyError} (enough : 3 ≤ n) :
    Brief (((Prog.call Stmt.rollbackToSavepoint fun _ => .raise error : Code Transaction)).attempt
      (Ledger.recoverTransfer key hash)) n := by
  apply Prog.Within.mono (m := 3) _ enough
  apply Prog.Within.call
  intro _ _
  exact recoverTransfer

theorem savepoint {a b : UUID} {amount : Decimal} {key hash currency : String} : Brief (Prog.attempt (do
      let transaction ← beginNested (postTransfer a b amount key hash currency)
      commit
      let transaction ← refresh transaction
      bestEffort do
        invalidateBalance a
        invalidateBalance b
      .ret transaction) (Ledger.recoverTransfer key hash)) 14 := by
  apply Prog.Within.call
  intro saved _
  apply Prog.Within.call
  intro transactionId _
  apply Prog.Within.call
  intro createdAt _
  apply Prog.Within.call
  intro inserted _
  cases inserted with
  | error error => exact leaves (by decide)
  | ok _ =>
  cases amount.neg with
  | none => exact leaves (by decide)
  | some debit =>
  apply Prog.Within.call
  intro debited _
  cases debited with
  | error error => exact leaves (by decide)
  | ok _ =>
  apply Prog.Within.call
  intro credited _
  cases credited with
  | error error => exact leaves (by decide)
  | ok _ =>
  apply Prog.Within.call
  intro eventId _
  apply Prog.Within.call
  intro eventAt _
  apply Prog.Within.call
  intro announced _
  apply Prog.Within.call
  intro released _
  apply Prog.Within.call
  intro committed _
  apply Prog.Within.call
  intro refreshed _
  apply Prog.Within.call
  intro deleted _
  cases deleted with
  | error error => trivial
  | ok _ =>
  apply Prog.Within.call
  intro deleted _
  cases deleted <;> trivial

theorem createTransfer (env : Deployment) (a b : UUID) (amount : Decimal) (key : String) :
    Brief (createTransfer env a b amount key) 19 := by
  apply Prog.Within.call
  intro rows _
  rcases rows with _ | ⟨existing, _ | ⟨_, _⟩⟩
  · apply ite
    · trivial
    · apply Prog.Within.call
      intro rows few
      apply lockRows (k := 2) (few.trans (List.length_insertionSort _ [a, b]).le)
      apply ite
      · trivial
      · cases rows.find? (·.accountId = a) with
        | none => trivial
        | some source =>
        cases rows.find? (·.accountId = b) with
        | none => trivial
        | some destination =>
        apply ite raises
        apply ite raises
        apply ite raises
        apply Prog.Within.call
        intro total _
        simp only [decimalOf_eq]
        exact ite raises savepoint
  · exact ite raises trivial
  · trivial

theorem computeBalance (x : UUID) : Brief (computeBalance x) 3 := by
  apply Prog.Within.call
  intro rows _
  rcases rows with _ | ⟨account, _ | ⟨_, _⟩⟩
  · trivial
  · apply Prog.Within.call
    intro total _
    simp only [decimalOf_eq]
    apply Prog.Within.call
    intro result _
    cases result <;> trivial
  · trivial

theorem getBalance (x : UUID) : Brief (getBalance x) 4 := by
  apply Prog.Within.call
  intro result _
  rcases result with error | _ | value
  · exact computeBalance x
  · exact computeBalance x
  · rcases read : Decimal.ofStr value with _ | (d | negative | _) <;> simp only [read]
    · exact computeBalance x
    · trivial
    · exact computeBalance x
    · exact computeBalance x

theorem getBalanceAt (x : UUID) (timestamp : Timestamp) : Brief (getBalanceAt x timestamp) 2 := by
  apply Prog.Within.call
  intro rows _
  rcases rows with _ | ⟨account, _ | ⟨_, _⟩⟩
  · trivial
  · apply Prog.Within.call
    intro total _
    simp only [decimalOf_eq]
    trivial
  · trivial

theorem answers {β : Type} {prog : Code α} {f : α → β} {m : ℕ} (brief : Brief prog m) (more : m ≤ n) :
    Brief (prog >>= fun value => .ret (f value)) n := by
  induction prog generalizing m n with
  | ret value => trivial
  | raise error => trivial
  | call stmt next ih =>
    have positive := brief.1
    refine ⟨by omega, fun result few => ?_⟩
    exact ih result (brief.2 result few) (by omega)

end Brief

theorem brief_body (env : Deployment) (request : Request) : Brief (body env request) 19 := by
  cases request with
  | createAccount created => exact (Brief.createAccount env created).answers (by decide)
  | createDeposit x amount => exact (Brief.createDeposit x amount.value).answers (by decide)
  | createWithdrawal x amount => exact (Brief.createWithdrawal x amount.value).answers (by decide)
  | createTransfer a b amount key => exact (Brief.createTransfer env a b amount.value key).answers (by decide)
  | getBalance x => exact (Brief.getBalance x).answers (by decide)
  | getBalanceAt x timestamp => exact (Brief.getBalanceAt x timestamp).answers (by decide)

section Runs
variable {env : Deployment} {w : World} {s t : State (machine env)}
  {ok : State (machine env) → Action (machine env) → Prop} {p q n : ℕ}

theorem few_of_exec {w' : World} {φ : Progress} {request : Request} {stmt : Stmt} {choice : Choice}
    {result : stmt.Result}
    (consistent : w.db.Consistent) (tracks : φ.Tracks env p w) (allowed : φ.Allowed request stmt)
    (executed : exec env p stmt choice w = some (result, w')) : Few stmt result := by
  cases stmt with
  | selectAccount x =>
    cases executed
    unfold Few
    rw [tracks.visible allowed.1]
    rcases consistent.account_cases x with ⟨none, _⟩ | ⟨account, _, _, one⟩
    · simp [none]
    · simp [one]
  | selectAccountsIn ids =>
    cases executed
    change (List.insertionSort _ _).length ≤ ids.length
    rw [tracks.visible allowed.1, List.length_insertionSort]
    have once : ((w.db.accounts.filter (·.accountId ∈ ids)).map (·.accountId)).Nodup :=
      consistent.accountIds.sublist (List.filter_sublist.map _)
    have named : (w.db.accounts.filter (·.accountId ∈ ids)).map (·.accountId) ⊆ ids := by
      intro x member
      obtain ⟨account, listed, same⟩ := List.mem_map.1 member
      have filtered := (List.mem_filter.1 listed).2
      exact same ▸ of_decide_eq_true filtered
    have shorter := (once.subperm named).length_le
    rwa [List.length_map] at shorter
  | _ => trivial

/-- No call executes more than nineteen statements. -/
theorem within_of_runs (opening : w.Opening) (runs : (machine env).Runs ok ((machine env).initial w) s)
    {proc : Proc (machine env)} (found : s.procs p = some proc) :
    proc.past.length ≤ 19 ∧ Brief proc.rest (19 - proc.past.length) := by
  refine Machine.Runs.within (brief_body env) ?_ runs p proc found
  intro s p proc choice stmt next result w' reached found rest executed
  obtain ⟨trace, traces⟩ := Machine.Runs.traces reached
  have tracks := tracks_of_traces opening traces (Protocol.open_of_call found rest)
  exact few_of_exec (consistent_of_runs opening reached) tracks (allowed_of_traces traces found rest) executed

/-- Calls execute their statements and end: none starts, none is cut off, and no time passes. -/
def Unhindered (env : Deployment) (_ : State (machine env)) (a : Action (machine env)) : Prop :=
  (∃ p choice, a = .step p choice) ∨ ∃ p, a = .close p

structure BetweenUsers (env : Deployment) (s : State (machine env)) (a : Action (machine env)) : Prop where
  opens : ∀ p created, a ≠ .start p (.createAccount created)
  parties : ∀ p request, a = .start p request → request.IsTransfer → ∀ x ∈ request.accounts,
      ¬s.world.db.IsSystemCash x

theorem Unhindered.betweenUsers {a : Action (machine env)} (unhindered : Unhindered env s a) :
    BetweenUsers env s a := by
  rcases unhindered with ⟨p, choice, same⟩ | ⟨p, same⟩
  · subst same
    exact ⟨fun _ _ other => (by cases other), fun _ _ other => (by cases other)⟩
  · subst same
    exact ⟨fun _ _ other => (by cases other), fun _ _ other => (by cases other)⟩

theorem separate_of_runs (opening : w.Opening)
    (runs : (machine env).Runs (BetweenUsers env) ((machine env).initial w) s) :
    (machine env).Runs (Separate env) ((machine env).initial w) s := by
  have accounts : ∀ {u : State (machine env)}, (machine env).Runs (BetweenUsers env) ((machine env).initial w) u →
      u.world.db.accounts = w.db.accounts :=
    fun runs => accounts_of_runs (fun _ p created between => between.opens p created rfl) opening runs
  induction runs with
  | refl => exact .refl
  | @tail s t runs stepped ih =>
    obtain ⟨a, between, stepped⟩ := stepped
    refine ih.tail ⟨a, ⟨between.opens, ?_⟩, stepped⟩
    intro p choice request x _ asked transfer _ y party cash
    obtain ⟨proc, found, same⟩ := Option.map_eq_some_iff.1 asked
    have users := Machine.Runs.requests (Φ := fun request : Request => request.IsTransfer →
      ∀ x ∈ request.accounts, ¬w.db.IsSystemCash x) (fun {u r request} runs between transfer x party => by
        have users := between.parties r request rfl transfer x party
        rwa [Tables.IsSystemCash, accounts runs] at users) runs p proc found
    rw [Tables.IsSystemCash, accounts runs] at cash
    exact users (same ▸ transfer) y (same ▸ party) cash

structure Lockless (q : ℕ) (w : World) : Prop where
  rowLocks : ∀ x mode, (q, mode) ∉ w.rowLocks x
  keyLocks : ∀ key, w.keyLocks key ≠ some q

theorem Lockless.of_finish (q : ℕ) (w : World) : Lockless q (w.finish q) where
  rowLocks x mode := by simp [World.finish]
  keyLocks key := by
    simp only [World.finish]
    split_ifs with held
    · exact fun same => by cases same
    · exact held

theorem Lockless.finish (lockless : Lockless q w) (p : ℕ) : Lockless q (w.finish p) where
  rowLocks x mode held := lockless.rowLocks x mode (List.mem_filter.1 held).1
  keyLocks key := by
    simp only [World.finish]
    split_ifs
    · exact fun same => by cases same
    · exact lockless.keyLocks key

theorem Lockless.not_blocks (lockless : Lockless q w) {stmt : Stmt} : ¬Blocks env q p w stmt := by
  intro blocks
  cases stmt with
  | lockAccount x =>
    obtain ⟨_, mode, held⟩ := blocks
    exact lockless.rowLocks x mode held
  | insertEntry _ x _ => exact lockless.rowLocks x _ blocks.2.2
  | insertTransaction transaction =>
    obtain ⟨_, _, key, _, _, held⟩ := blocks
    exact lockless.keyLocks key held
  | _ => exact blocks

theorem lockless_of_idle {trace : List (Executed language)} (opening : w.Opening)
    (traces : (machine env).Traces ok ((machine env).initial w) trace s) (idle : s.procs q = none) :
    Lockless q s.world := by
  have tracks := tracks_of_traces (p := q) opening traces fun proc found => by cases idle.symm.trans found
  rw [progress, Protocol.phase_of_idle traces idle] at tracks
  constructor
  · intro x mode held
    cases mode with
    | forUpdate => cases (tracks.forUpdate x).1 held
    | keyShare =>
      obtain ⟨_, entry, member, _⟩ := (tracks.keyShare x).1 held
      cases member
  · intro key held
    cases tracks.keys key held

theorem closes (s : State (machine env)) (n : ℕ) : ∃ t, (machine env).Runs (Unhindered env) s t ∧
    t.procs = s.procs ∧ World.db t.world = s.world.db ∧ World.issued t.world = s.world.issued ∧
      ∀ q < n, ∀ proc, s.procs q = some proc → proc.rest.Finished → Lockless q t.world := by
  obtain ⟨t, runs, procs, ⟨db, issued⟩, lockless⟩ := Machine.closes (M := machine env)
    (fun w => World.db w = s.world.db ∧ World.issued w = s.world.issued) Lockless
    (fun _ _ same => same) Lockless.of_finish (fun p _ _ lockless => lockless.finish p) s ⟨rfl, rfl⟩ n
  exact ⟨t, Machine.Runs.mono (fun _ _ closing => .inr closing) runs, procs, db, issued, lockless⟩

/-- Among the calls in progress one waits for no other. -/
theorem unblocked (opening : w.Opening) (runs : (machine env).Runs (Separate env) ((machine env).initial w) s)
    (idle : ∀ q, n ≤ q → s.procs q = none)
    (lockless : ∀ q < n, ∀ proc, s.procs q = some proc → proc.rest.Finished → Lockless q s.world)
    {proc : Proc (machine env)} (found : s.procs p = some proc) (running : ¬proc.rest.Finished) :
    ∃ q stmt, nextStmt q s = some stmt ∧ ∀ r, ¬Blocks env r q s.world stmt := by
  obtain ⟨trace, traces⟩ := runs.traces
  have started : ∀ q proc, s.procs q = some proc → q < n := by
    intro q proc found
    by_contra beyond
    cases found.symm.trans (idle q (Nat.le_of_not_lt beyond))
  have called : ∀ q proc, s.procs q = some proc → ¬proc.rest.Finished → ∃ stmt,
      nextStmt q s = some stmt := by
    intro q proc found running
    obtain ⟨request, started, past, rest⟩ := proc
    cases rest with
    | ret value => exact absurd trivial running
    | raise error => exact absurd trivial running
    | call stmt next => exact ⟨stmt, nextStmt_eq found rfl⟩
  let rank : ℕ → ℕ ×ₗ UUID := fun p =>
    ((nextStmt p s).map (stage s.world.db (progress env p trace))).getD (toLex (5, 0))
  let calls := (Finset.range n).filter fun q => (nextStmt q s).isSome
  have nonempty : calls.Nonempty := by
    obtain ⟨stmt, next⟩ := called p proc found running
    exact ⟨p, Finset.mem_filter.2 ⟨Finset.mem_range.2 (started p proc found), by rw [next]; rfl⟩⟩
  obtain ⟨q, member, highest⟩ := Finset.exists_max_image calls rank nonempty
  obtain ⟨stmt, next⟩ := Option.isSome_iff_exists.1 (Finset.mem_filter.1 member).2
  refine ⟨q, stmt, next, fun r blocks => ?_⟩
  obtain ⟨request, waiting⟩ := standing opening traces next
  cases holder : s.procs r with
  | none => exact (lockless_of_idle opening traces holder).not_blocks blocks
  | some proc =>
    by_cases finished : proc.rest.Finished
    · exact (lockless r (started r proc holder) proc holder finished).not_blocks blocks
    · obtain ⟨stmt', next'⟩ := called r proc holder finished
      obtain ⟨request', holding⟩ := standing opening traces next'
      have later := waiting.stage_lt (exclusive_of_runs opening runs) holding blocks
      have among : r ∈ calls := Finset.mem_filter.2
          ⟨Finset.mem_range.2 (started r proc holder), by rw [next']; rfl⟩
      have bounded := highest r among
      simp only [rank, next, next', Option.map_some, Option.getD_some] at bounded
      exact absurd later (not_lt.2 bounded)

def Undrawn (value : UUID) (w : World) : Prop := value ∉ w.issued.map (·.2) ∧ value ∉ w.db.ids

theorem Lockless.of_step {a : Action (machine env)} (lockless : Lockless q s.world) {proc : Proc (machine env)}
    (found : s.procs q = some proc) (finished : proc.rest.Finished) (stepped : (machine env).step s a = some t) :
    Lockless q t.world := by
  rcases Machine.step_cases stepped with ⟨p, request, rfl, fresh, rfl⟩ |
    ⟨p, choice, before, stmt, next, result, w', rfl, found', rest, executed, rfl⟩ |
    ⟨p, before, rfl, found', running, rfl⟩ | ⟨p, before, rfl, found', finished', rfl⟩ |
      ⟨e, w', rfl, ticked, rfl⟩
  · exact lockless
  · have other : q ≠ p := by
      intro same
      subst same
      cases found.symm.trans found'
      rw [rest] at finished
      exact finished
    have performed : exec env p stmt choice s.world = some (result, w') := executed
    have apart := (effect_of_exec performed).apart other
    exact ⟨fun x mode held => lockless.rowLocks x mode ((apart.rowLocks x mode).1 held),
      fun key held => lockless.keyLocks key ((apart.keyLocks key).1 held)⟩
  · exact lockless
  · exact lockless.finish p
  · cases ticked
    exact ⟨lockless.rowLocks, lockless.keyLocks⟩

structure Releases (w w' : World) : Prop where
  rowLocks : ∀ x, w'.rowLocks x ⊆ w.rowLocks x
  keyLocks : ∀ key q, w'.keyLocks key = some q → w.keyLocks key = some q

theorem Blocks.of_releases {w' : World} {stmt : Stmt} (blocks : Blocks env q p w' stmt) (releases : Releases w w') :
    Blocks env q p w stmt := by
  cases stmt with
  | lockAccount x =>
    obtain ⟨other, mode, held⟩ := blocks
    exact ⟨other, mode, releases.rowLocks x held⟩
  | insertEntry transactionId x amount =>
    obtain ⟨other, locks, held⟩ := blocks
    exact ⟨other, locks, releases.rowLocks x held⟩
  | insertTransaction transaction =>
    obtain ⟨other, row, key, stored, keyed, held⟩ := blocks
    exact ⟨other, row, key, stored, keyed, releases.keyLocks key q held⟩
  | _ => exact blocks

theorem releases_of_still {a : Action (machine env)} (stepped : (machine env).step s a = some t)
    (still : t.procs = s.procs) : Releases s.world t.world := by
  rcases Machine.step_cases stepped with ⟨p, request, rfl, fresh, rfl⟩ |
    ⟨p, choice, before, stmt, next, result, w', rfl, found, rest, executed, rfl⟩ |
    ⟨p, before, rfl, found, running, rfl⟩ | ⟨p, before, rfl, found, finished, rfl⟩ |
      ⟨e, w', rfl, ticked, rfl⟩
  · exact ⟨fun _ => List.Subset.refl _, fun _ _ held => held⟩
  · have same := congrFun still p
    rw [found] at same
    simp only [Function.update_self, Option.some.injEq] at same
    have longer := congrArg (fun proc => proc.past.length) same
    simp at longer
  · exact ⟨fun _ => List.Subset.refl _, fun _ _ held => held⟩
  · refine ⟨fun x holder held => (List.mem_filter.1 held).1, fun key q held => ?_⟩
    simp only [machine, World.finish] at held
    split_ifs at held
    exact held
  · cases ticked
    exact ⟨fun _ => List.Subset.refl _, fun _ _ held => held⟩

/-- In every fair run all calls come to their end, while `uuid4` has values left. -/
theorem ended_of_fair {path : ℕ → State (machine env)} {actions : ℕ → Action (machine env)}
    (opening : w.Opening) (started : (machine env).Runs (Separate env) ((machine env).initial w) (path 0))
    (fair : (machine env).Fair (Separate env) path actions) (fresh : ∀ n, ∃ value, Undrawn value (path n).world) :
    ∃ n, ∀ p proc, (path n).procs p = some proc → proc.rest.Finished := by
  have reached : ∀ n, (machine env).Runs (Separate env) ((machine env).initial w) (path n) :=
    fun n => started.trans (fair.runs n)
  have stays : ∀ n p proc, (path n).procs p = some proc → proc.rest.Finished → Lockless p (path n).world →
      Lockless p (path (n + 1)).world :=
    fun n p proc found finished lockless => lockless.of_step found finished (fair.steps n)
  refine fair.ends started Lockless.of_finish stays ?_
  intro n still lockless p proc found running
  obtain ⟨bound, idle⟩ := Machine.Runs.finite (reached n)
  obtain ⟨q, stmt, next, free⟩ := unblocked opening (reached n) idle
    (fun q _ proc found finished => lockless q proc found finished) found running
  obtain ⟨caller, rest, found', call⟩ := nextStmt_cases next
  refine ⟨q, fun m later => ?_⟩
  have releases : Releases (path n).world (path m).world := by
    induction later with
    | refl => exact ⟨fun _ => List.Subset.refl _, fun _ _ held => held⟩
    | @step m later ih =>
      have here := releases_of_still (fair.steps m)
        ((still (m + 1) (Nat.le_succ_of_le later)).trans (still m later).symm)
      exact ⟨fun x _ held => ih.rowLocks x (here.rowLocks x held), fun key q held =>
        ih.keyLocks key q (here.keyLocks key q held)⟩
  obtain ⟨choice, result, w', executed⟩ : ∃ choice result w',
    exec env q stmt choice (path m).world = some (result, w') := by
    rcases enabled_or_waits (covers_all opening (reached m)).inv q stmt with enabled | waits
    · exact enabled
    · rcases blocks_of_waits waits with ⟨r, blocks⟩ | drawing
      · exact absurd (blocks.of_releases releases) (free r)
      · subst drawing
        obtain ⟨value, unused⟩ := fresh m
        exact ⟨.uuid value, _, _, if_neg (not_or.2 unused)⟩
  rw [← still m later] at found'
  exact ⟨choice, _, Machine.step_eq found' call executed⟩

theorem ids_of_step {trace : List (Executed language)}
    (opens : ∀ s p created, ¬ok s (.start p (.createAccount created)))
    (opening : w.Opening) (traces : (machine env).Traces ok ((machine env).initial w) trace s)
    {proc : Proc (machine env)} {stmt : Stmt}
    {next : stmt.Result → Code Value} {choice : Choice} {result : stmt.Result} {w' : World}
    (found : s.procs p = some proc)
    (rest : proc.rest = .call stmt next) (executed : exec env p stmt choice s.world = some (result, w')) :
    ∀ id ∈ w'.db.ids, id ∈ s.world.db.ids ∨ id ∈ (World.issued s.world).map (·.2) := by
  intro id member
  by_cases commit : stmt = .commit
  · subst commit
    have running := Protocol.open_of_call found rest
    have tracks := tracks_of_traces opening traces running
    have allowed := allowed_of_traces traces found rest
    have drawn := drawn_of_traces traces running
    have performed : (machine env).exec p .commit choice s.world = some (result, w') := executed
    have guar := ((sound env _).guar_of_step (covers_all opening traces.runs) found rest performed).1
    rcases guar.commits with same | ⟨rows, _, commits, grown, written⟩
    · exact .inl (same ▸ member)
    · rw [grown, Tables.mem_ids_append] at member
      apply member.imp_right
      intro new
      cases commits with
      | opens created account asks =>
        have asked := Machine.Runs.requests (Φ := fun request : Request => ∀ created,
          request ≠ .createAccount created)
          (fun _ allowed created same => opens _ _ created (same ▸ allowed)) traces.runs p proc found
        exact absurd asks (asked created)
      | posts P =>
        have inserted : P.rows = (progress env p trace).writes := by rw [written, tracks.session]
        have transaction : P.transaction ∈ (progress env p trace).writes.transactions := by
          rw [← inserted]
          exact List.mem_cons_self
        have event : P.event ∈ (progress env p trace).writes.events := by
          rw [← inserted]
          exact List.mem_cons_self
        have ids := allowed.drawn P.transaction transaction P.event event
        apply drawn.issued
        rw [ids]
        simpa [Tables.ids, Posting.rows, or_comm] using new
  · rw [(exec_frame executed).1 commit] at member
    exact .inl member

/-- What there is on the way to the end: a run, and a value for every identifier that a call may still draw. -/
structure Underway (env : Deployment) (w : World) (n : ℕ) (s : State (machine env)) : Prop where
  runs : (machine env).Runs (BetweenUsers env) ((machine env).initial w) s
  idle : ∀ q, n ≤ q → s.procs q = none
  spare : ∃ values : List UUID, values.Nodup ∧ (∀ value ∈ values, Undrawn value s.world) ∧
    Machine.left (fun _ => 19) n s ≤ values.length

theorem Underway.closed {t : State (machine env)} (underway : Underway env w n s)
    (runs : (machine env).Runs (Unhindered env) s t)
    (procs : t.procs = s.procs) (db : World.db t.world = s.world.db)
    (issued : World.issued t.world = s.world.issued) :
    Underway env w n t := by
  refine ⟨underway.runs.trans (Machine.Runs.mono (fun _ _ unhindered => unhindered.betweenUsers) runs), ?_, ?_⟩
  · intro q beyond
    rw [procs, underway.idle q beyond]
  · obtain ⟨values, once, undrawn, enough⟩ := underway.spare
    refine ⟨values, once, fun value member => ?_, ?_⟩
    · unfold Undrawn
      rw [issued, db]
      exact undrawn value member
    · rwa [Machine.left_congr procs]

theorem Underway.step {t : State (machine env)} {choice : Choice} {values : List UUID} (opening : w.Opening)
    (underway : Underway env w n s) (once : values.Nodup) (undrawn : ∀ value ∈ values, Undrawn value s.world)
    (enough : Machine.left (fun _ => 19) n s ≤ values.length)
    (stepped : (machine env).step s (.step p choice) = some t)
    (draws : nextStmt p s = some .uuid4 → ∀ value, choice = .uuid value → value ∈ values) :
    Underway env w n t ∧ Machine.left (fun _ => 19) n t < Machine.left (fun _ => 19) n s := by
  obtain ⟨proc, stmt, next, result, w', found, rest, executed, reached⟩ := Machine.step_own stepped
  have below : p < n := by
    by_contra beyond
    cases found.symm.trans (underway.idle p (Nat.le_of_not_lt beyond))
  have within := (within_of_runs opening underway.runs found).2
  rw [rest] at within
  have positive := within.1
  have less := Machine.left_lt (fun _ => 19) stepped found below (by omega)
  have between : BetweenUsers env s (.step p choice) := Unhindered.betweenUsers (.inl ⟨p, choice, rfl⟩)
  refine ⟨⟨underway.runs.tail ⟨_, between, stepped⟩, fun q beyond => ?_, ?_⟩, less⟩
  · exact Machine.procs_of_step stepped (underway.idle q beyond) fun _ same => by cases same
  obtain ⟨trace, traces⟩ := underway.runs.traces
  have ids := ids_of_step (fun _ p created between => between.opens p created rfl) opening traces found rest executed
  have kept : ∀ value, Undrawn value s.world → value ∉ w'.db.ids := by
    intro value undrawn member
    rcases ids value member with old | drawn
    · exact undrawn.2 old
    · exact undrawn.1 drawn
  subst reached
  rcases exec_issued executed with same | ⟨value, called, chosen, issued⟩
  · refine ⟨values, once, fun value member => ⟨?_, kept value (undrawn value member)⟩, by omega⟩
    rw [same]
    exact (undrawn value member).1
  · subst called
    have member := draws (nextStmt_eq found rest) value chosen
    refine ⟨values.erase value, once.erase value, fun other left => ⟨?_, ?_⟩, ?_⟩
    · obtain ⟨different, listed⟩ := (List.Nodup.mem_erase_iff once).1 left
      rw [issued, List.map_cons, List.mem_cons, not_or]
      exact ⟨different, (undrawn other listed).1⟩
    · exact kept other (undrawn other (List.mem_of_mem_erase left))
    · rw [List.length_erase_of_mem member]
      omega

def Over (s : State (machine env)) : Prop := ∀ p, (requestOf p s).isSome → (answer p s).isSome

theorem Underway.nearer (opening : w.Opening) (s : State (machine env)) (underway : Underway env w n s)
    (unfinished : ¬Over s) :
    ∃ t, (machine env).Runs (Unhindered env) s t ∧ Underway env w n t ∧
    Machine.left (fun _ => 19) n t < Machine.left (fun _ => 19) n s := by
  obtain ⟨u, closing, procs, db, issued, lockless⟩ := closes s n
  have closed := underway.closed closing procs db issued
  simp only [Over, not_forall] at unfinished
  obtain ⟨p, started, unanswered⟩ := unfinished
  cases found : s.procs p with
  | none =>
    rw [requestOf, found] at started
    cases started
  | some proc =>
  have running : ¬proc.rest.Finished := running_of_answer (by simpa using unanswered) found
  rw [← procs] at found lockless
  obtain ⟨q, stmt, next, free⟩ := unblocked opening (separate_of_runs opening closed.runs) closed.idle
    lockless found running
  obtain ⟨values, once, undrawn, enough⟩ := closed.spare
  obtain ⟨caller, rest, found', call⟩ := nextStmt_cases next
  have same : Machine.left (fun _ => 19) n u = Machine.left (fun _ => 19) n s := Machine.left_congr procs
  obtain ⟨choice, result, w', executed, draws⟩ : ∃ choice result w',
    exec env q stmt choice u.world = some (result, w') ∧
      (stmt = .uuid4 → ∀ value, choice = .uuid value → value ∈ values) := by
    by_cases draw : stmt = .uuid4
    · subst draw
      have within := (within_of_runs opening closed.runs found').2
      rw [call] at within
      have positive := within.1
      have below : q < n := by
        by_contra beyond
        cases found'.symm.trans (closed.idle q (Nat.le_of_not_lt beyond))
      have quota := Machine.quota_le_left (fun _ => 19) u below
      rw [Machine.quota_eq found'] at quota
      obtain ⟨value, member⟩ := List.exists_mem_of_length_pos (show 0 < values.length by omega)
      have unused := not_or.2 (undrawn value member)
      refine ⟨.uuid value, _, _, if_neg unused, fun _ other chosen => ?_⟩
      cases chosen
      exact member
    · rcases enabled_or_waits (covers_all opening closed.runs).inv q stmt with
        ⟨choice, result, w', executed⟩ | waits
      · exact ⟨choice, result, w', executed, fun called => absurd called draw⟩
      · rcases blocks_of_waits waits with ⟨r, blocks⟩ | called
        · exact absurd blocks (free r)
        · exact absurd called draw
  have stepped := Machine.step_eq found' call executed
  have stepping := closed.step opening once undrawn enough stepped
    (fun drawing => draws (Option.some.inj (next.symm.trans drawing)))
  exact ⟨_, closing.tail ⟨_, .inl ⟨q, choice, rfl⟩, stepped⟩, stepping.1, same ▸ stepping.2⟩

theorem spare_values (used : List UUID) {k : ℕ} (room : used.length + k ≤ 2 ^ 128) :
    ∃ values : List UUID, values.Nodup ∧ (∀ value ∈ values, value ∉ used) ∧ k ≤ values.length := by
  refine ⟨(Finset.univ \ used.toFinset).toList, Finset.nodup_toList _, fun value member => ?_, ?_⟩
  · have new := (Finset.mem_sdiff.1 (Finset.mem_toList.1 member)).2
    rwa [List.mem_toFinset] at new
  · have size : Fintype.card UUID = 2 ^ 128 := Fintype.card_fin _
    have few := List.toFinset_card_le used
    have rest := Finset.le_card_sdiff used.toFinset (Finset.univ : Finset UUID)
    rw [Finset.card_univ, size] at rest
    rw [Finset.length_toList]
    omega

/-- All calls can be brought to their end from wherever they are, without cutting any off. -/
theorem completable (opening : w.Opening) (runs : (machine env).Runs (BetweenUsers env) ((machine env).initial w) s)
    (idle : ∀ q, n ≤ q → s.procs q = none)
    (room : (World.issued s.world).length + s.world.db.ids.length + n * 19 ≤ 2 ^ 128) :
    ∃ t, (machine env).Runs (Unhindered env) s t ∧ ∀ p, (requestOf p s).isSome → (answer p t).isSome := by
  obtain ⟨values, once, new, enough⟩ :=
    spare_values ((World.issued s.world).map (·.2) ++ s.world.db.ids) (k := n * 19)
    (by rwa [List.length_append, List.length_map])
  have undrawn : ∀ value ∈ values, Undrawn value s.world := by
    intro value member
    have unused := new value member
    rw [List.mem_append, not_or] at unused
    exact unused
  have underway : Underway env w n s :=
    ⟨runs, idle, values, once, undrawn, (Machine.left_le fun _ => Nat.le_refl 19).trans enough⟩
  obtain ⟨t, later, _, ended⟩ := Machine.completes (Machine.left (fun _ => 19) n)
    (Underway.nearer opening) s underway
  refine ⟨t, later, fun p asked => ended p ?_⟩
  cases found : s.procs p with
  | none =>
    rw [requestOf, found] at asked
    cases asked
  | some proc =>
    obtain ⟨after, found', same⟩ := Machine.Runs.request later found
    rw [requestOf_eq found']
    rfl

end Runs

def betweenUsers : State (machine sample) → Action (machine sample) → Bool
  | _, .start _ (.createAccount _) => false
  | s, .start _ request => request.accounts.all fun x => !decide ((s.world : World).db.IsSystemCash x)
  | _, _ => true

theorem betweenUsers_of_allowed (s : State (machine sample)) (a : Action (machine sample))
    (allowed : betweenUsers s a) : BetweenUsers sample s a where
  opens p created same := by
    subst same
    cases allowed
  parties p request same transfer x party := by
    subst same
    cases request with
    | createTransfer source destination amount key =>
      simpa using List.all_eq_true.1 allowed x party
    | _ => exact absurd transfer id

/-- Of the two opposite transfers the second one waits for the first, and both can be brought to their end. -/
theorem completable_sample : ∃ s t : State (machine sample), WaitsFor sample s 1 0 ∧
    (machine sample).Runs (Unhindered sample) s t ∧ ∀ p, (requestOf p s).isSome → (answer p t).isSome := by
  have executed : ((machine sample).run betweenUsers ((machine sample).initial bank) opposite).map
      (fun s => (holdsUp 0 1 s, (World.issued s.world).length + (World.db s.world).ids.length)) = some (true, 5) := by
    decide +kernel
  obtain ⟨s, reached, observed⟩ := Option.map_eq_some_iff.1 executed
  simp only [Prod.mk.injEq] at observed
  obtain ⟨runs, unused⟩ := Machine.Runs.of_run_below (n := 2) (fun s a _ => betweenUsers_of_allowed s a)
    (fun p request member => by
      simp only [opposite, List.mem_cons, reduceCtorEq, List.not_mem_nil, false_or, or_false] at member
      rcases member with same | same <;> cases same <;> decide) (fun _ _ => rfl) reached
  obtain ⟨t, later, ended⟩ := completable bank_opening runs unused (by rw [observed.2]; decide)
  exact ⟨s, t, waitsFor_of_holdsUp observed.1, later, ended⟩

end LedgerFlow.Ledger
