import LedgerFlow.Concurrency.Erasure
import LedgerFlow.Ledger.Liveness
import LedgerFlow.Ledger.Router

/-! Redis never matters to the books: whatever it answers, the calls could have come to the same tables and to
the same answers with Redis down, but for the balances read through it. -/

namespace LedgerFlow.Ledger
open Accounts Outbox Concurrency World

def Stmt.isRedis : Stmt → Bool
  | .redisGet _ => true
  | .redisSet _ _ => true
  | .redisDelete _ => true
  | _ => false

def Stmt.unavailable : (stmt : Stmt) → stmt.isRedis → stmt.Result
  | .redisGet _, _ => .error .redisError
  | .redisSet _ _, _ => .error .redisError
  | .redisDelete _, _ => .error .redisError

/-- The worlds agree in everything but the cache. -/
def World.SameBooks (w v : World) : Prop := { w with redis := v.redis } = v

variable {env : Deployment} {p q : ℕ} {w v w' : World} {stmt : Stmt}

namespace World.SameBooks

theorem equivalence : Equivalence SameBooks where
  refl _ := rfl
  symm := by
    intro w v same
    unfold SameBooks at *
    rw [← same]
  trans := by
    intro w v u first second
    unfold SameBooks at *
    rw [← second, ← first]

theorem later (same : SameBooks w v) (elapsed : ℕ) :
    SameBooks { w with clock := w.clock + elapsed } { v with clock := v.clock + elapsed } := by
  unfold SameBooks at *
  rw [← same]

theorem cache (redis : String → Option String) (w : World) : SameBooks w { w with redis } := rfl

end World.SameBooks

theorem exec_cache {choice : Choice} (redis : String → Option String) (other : ¬stmt.isRedis) :
    exec env p stmt choice { w with redis } =
      (exec env p stmt choice w).map fun outcome => (outcome.1, { outcome.2 with redis }) := by
  cases stmt with
  | redisGet | redisSet | redisDelete => exact absurd rfl other
  | uuid4 =>
    cases choice <;> simp only [exec] <;> (try split_ifs) <;> rfl
  | lockAccount =>
    simp only [exec]
    split_ifs <;> rfl
  | insertAccount account =>
    simp only [exec]
    cases account.stored <;> rfl
  | insertTransaction transaction =>
    have seen : World.visible p { w with redis } = w.visible p := rfl
    simp only [exec, seen]
    split
    · rfl
    split
    · rfl
    · split_ifs
      · rfl
      · cases w.keyLocks _ <;> rfl
  | insertEntry transactionId x amount =>
    simp only [exec]
    split
    · rfl
    · split_ifs <;> rfl
  | _ => rfl

/-- The cache commands are put aside: they fail as they do while Redis is down. -/
def cacheAside (env : Deployment) : Aside (machine env) where
  stmt := Stmt.isRedis
  result := Stmt.unavailable
  choice := .redisDown
  same := World.SameBooks
  equivalence := World.SameBooks.equivalence
  returns p stmt aside w := by
    cases stmt with
    | redisGet | redisSet | redisDelete => exact ⟨w, rfl⟩
    | _ => cases aside
  silent := by
    intro p stmt choice w result w' aside executed
    cases stmt with
    | redisGet | redisSet | redisDelete => cases choice <;> cases executed <;> rfl
    | _ => cases aside
  exec := by
    intro p stmt choice w v result w' other same executed
    have executed : Ledger.exec env p stmt choice w = some (result, w') := executed
    have mirrored : Ledger.exec env p stmt choice { w with redis := World.redis v } = _ :=
      exec_cache (World.redis v) other
    rw [executed, same] at mirrored
    exact ⟨_, mirrored, rfl⟩
  close p w v same := congrArg (World.finish p) same
  tick := by
    intro elapsed w v w' same ticked
    cases ticked
    exact ⟨_, rfl, same.later elapsed⟩

/-- What the call comes to does not depend on Redis. -/
abbrev Indifferent {α : Type} (env : Deployment) (prog : Code α) : Prop := (cacheAside env).Indifferent prog

namespace Indifferent
variable {α β : Type}

theorem call {next : stmt.Result → Code α} (books : stmt.isRedis = false)
    (rest : ∀ result, Indifferent env (next result)) : Indifferent env (.call stmt next) :=
  Aside.Indifferent.call (A := cacheAside env) (fun aside => by cases books.symm.trans aside) rest

theorem raises {error : PyError} : Indifferent env (.raise error : Code α) := trivial

theorem ite {c : Prop} [Decidable c] {x y : Code α} (yes : Indifferent env x) (no : Indifferent env y) :
    Indifferent env (if c then x else y) :=
  Aside.Indifferent.ite yes no

theorem scalarOneOrNone {rows : List β} {next : Option β → Code α} (rest : ∀ row, Indifferent env (next row)) :
    Indifferent env (Ledger.scalarOneOrNone rows >>= next) := by
  rcases rows with _ | ⟨row, _ | ⟨other, others⟩⟩
  · exact rest none
  · exact rest (some row)
  · trivial

theorem checked {result : Except PyError Unit} {next : Unit → Code α} (rest : Indifferent env (next ())) :
    Indifferent env (Ledger.checked result >>= next) := by
  cases result with
  | error error => trivial
  | ok _ => exact rest

theorem lockRows {rows : List Account} {next : List Account → Code α} (rest : Indifferent env (next rows)) :
    Indifferent env ((lockAll rows >>= fun _ => .ret rows) >>= next) := by
  rw [Prog.bind_assoc]
  suffices all : ∀ others, Indifferent env (lockAll others >>= fun _ => next rows) from all rows
  intro others
  induction others with
  | nil => exact rest
  | cons account others ih => exact call rfl fun _ => ih

theorem posting {transactionType : TransactionType} {reference : String} {x y z : UUID} {amount : Decimal}
    {eventType : String} {payload : Transaction → Json} {value : Transaction → α} : Indifferent env (do
      let transaction ← flushTransaction transactionType reference none none
      match amount.neg with
      | none => .raise .overflow
      | some debit =>
        insertEntry transaction.transactionId x debit
        insertEntry transaction.transactionId y amount
        flushOutboxEvent transaction.transactionId eventType (payload transaction)
        commit
        let transaction ← refresh transaction
        bestEffort (invalidateBalance z)
        .ret (value transaction)) := by
  apply call rfl
  intro transactionId
  apply call rfl
  intro createdAt
  apply call rfl
  intro inserted
  change Indifferent env ((Ledger.checked inserted >>= _) >>= _)
  rw [Prog.bind_assoc]
  apply checked
  simp only [Prog.ret_bind]
  cases amount.neg with
  | none => trivial
  | some debit =>
    apply call rfl
    intro debited
    apply checked
    apply call rfl
    intro credited
    apply checked
    apply call rfl
    intro eventId
    apply call rfl
    intro eventAt
    apply call rfl
    intro announced
    apply call rfl
    intro committed
    apply call rfl
    intro refreshed
    refine ⟨fun _ first second => ?_, fun deleted => ?_⟩
    · cases first <;> cases second <;> rfl
    · cases deleted <;> trivial

theorem createDeposit (x : UUID) (amount : Decimal) : Indifferent env (createDeposit x amount) := by
  apply call rfl
  intro rows
  apply scalarOneOrNone
  intro account
  cases account with
  | none => trivial
  | some account =>
    apply ite raises
    apply call rfl
    intro rows
    apply scalarOneOrNone
    intro system
    cases system with
    | none => trivial
    | some system => exact posting

theorem createWithdrawal (x : UUID) (amount : Decimal) : Indifferent env (createWithdrawal x amount) := by
  apply call rfl
  intro rows
  apply lockRows
  apply scalarOneOrNone
  intro account
  cases account with
  | none => trivial
  | some account =>
    apply ite raises
    apply call rfl
    intro total
    simp only [decimalOf_eq]
    apply ite raises
    apply call rfl
    intro rows
    apply scalarOneOrNone
    intro system
    cases system with
    | none => trivial
    | some system => exact posting

theorem recoverTransfer {key hash : String} {error : PyError} : Indifferent env (recoverTransfer key hash error) := by
  cases error with
  | integrityError =>
    apply call rfl
    intro _
    apply call rfl
    intro rows
    apply scalarOneOrNone
    intro existing
    cases existing with
    | none => trivial
    | some existing => exact ite raises trivial
  | _ => trivial

theorem leaves {key hash : String} {error : PyError} :
    Indifferent env (((Prog.call Stmt.rollbackToSavepoint fun _ => .raise error : Code Transaction)).attempt
      (Ledger.recoverTransfer key hash)) :=
  call rfl fun _ => recoverTransfer

theorem savepoint {a b : UUID} {amount : Decimal} {key hash currency : String} : Indifferent env (Prog.attempt (do
      let transaction ← beginNested (postTransfer a b amount key hash currency)
      commit
      let transaction ← refresh transaction
      bestEffort do
        invalidateBalance a
        invalidateBalance b
      .ret transaction) (Ledger.recoverTransfer key hash)) := by
  apply call rfl
  intro saved
  apply call rfl
  intro transactionId
  apply call rfl
  intro createdAt
  apply call rfl
  intro inserted
  cases inserted with
  | error error => exact leaves
  | ok _ =>
  cases amount.neg with
  | none => exact leaves
  | some debit =>
  apply call rfl
  intro debited
  cases debited with
  | error error => exact leaves
  | ok _ =>
  apply call rfl
  intro credited
  cases credited with
  | error error => exact leaves
  | ok _ =>
  apply call rfl
  intro eventId
  apply call rfl
  intro eventAt
  apply call rfl
  intro announced
  apply call rfl
  intro released
  apply call rfl
  intro committed
  apply call rfl
  intro refreshed
  refine ⟨fun _ first second => ?_, fun deleted => ?_⟩
  · cases first <;> cases second <;> rfl
  cases deleted with
  | error error => trivial
  | ok _ =>
  refine ⟨fun _ first second => ?_, fun deleted => ?_⟩
  · cases first <;> cases second <;> rfl
  · cases deleted <;> trivial

theorem createTransfer (a b : UUID) (amount : Decimal) (key : String) :
    Indifferent env (createTransfer env a b amount key) := by
  apply call rfl
  intro rows
  apply scalarOneOrNone
  intro existing
  cases existing with
  | some existing => exact ite raises trivial
  | none =>
    apply ite raises
    apply call rfl
    intro rows
    apply lockRows
    apply ite raises
    cases rows.find? (·.accountId = a) with
    | none => trivial
    | some source =>
    cases rows.find? (·.accountId = b) with
    | none => trivial
    | some destination =>
    apply ite raises
    apply ite raises
    apply ite raises
    apply call rfl
    intro total
    simp only [decimalOf_eq]
    exact ite raises savepoint

theorem getBalanceAt (x : UUID) (timestamp : Timestamp) : Indifferent env (getBalanceAt x timestamp) := by
  apply call rfl
  intro rows
  apply scalarOneOrNone
  intro account
  cases account with
  | none => trivial
  | some account =>
    apply call rfl
    intro total
    simp only [decimalOf_eq]
    trivial

theorem createAccount (created : CreateAccountRequest) : Indifferent env (createAccount env created) := by
  unfold Ledger.createAccount
  cases AccountType.ofStr created.accountType with
  | none => trivial
  | some accountType =>
    apply call rfl
    intro accountId
    apply call rfl
    intro inserted
    apply checked
    apply call rfl
    intro committed
    apply call rfl
    intro refreshed
    trivial

end Indifferent

def Request.ReadsCache : Request → Prop
  | .getBalance _ => True
  | _ => False

theorem indifferent_body {request : Request} (books : ¬request.ReadsCache) : Indifferent env (body env request) := by
  cases request with
  | createAccount created => exact Aside.Indifferent.bind (Indifferent.createAccount created) fun _ => trivial
  | createDeposit x amount => exact Aside.Indifferent.bind (Indifferent.createDeposit x amount.value) fun _ => trivial
  | createWithdrawal x amount =>
    exact Aside.Indifferent.bind (Indifferent.createWithdrawal x amount.value) fun _ => trivial
  | createTransfer a b amount key =>
    exact Aside.Indifferent.bind (Indifferent.createTransfer a b amount.value key) fun _ => trivial
  | getBalance x => exact absurd trivial books
  | getBalanceAt x timestamp => exact Aside.Indifferent.bind (Indifferent.getBalanceAt x timestamp) fun _ => trivial

/-- Not a statement of a reader: it writes, locks or draws. -/
def Stmt.Writes : Stmt → Prop
  | .selectAccount _ => False
  | .sumEntries _ => False
  | .redisGet _ => False
  | .redisSet _ _ => False
  | _ => True

theorem getBalance_never (x : UUID) : (body env (.getBalance x)).Never Stmt.Writes := by
  have compute : (computeBalance x).Never Stmt.Writes := by
    refine ⟨id, fun rows => ?_⟩
    rcases rows with _ | ⟨account, _ | ⟨_, _⟩⟩
    · trivial
    · refine ⟨id, fun total => ?_⟩
      simp only [decimalOf_eq]
      refine ⟨id, fun result => ?_⟩
      cases result <;> trivial
    · trivial
  apply Prog.Never.bind
  · refine ⟨id, fun result => ?_⟩
    rcases result with error | _ | value
    · exact compute
    · exact compute
    · rcases read : Decimal.ofStr value with _ | (d | negative | _) <;> simp only [read]
      · exact compute
      · trivial
      · exact compute
      · exact compute
  · exact fun _ => trivial

section Runs
variable {s t : State (machine env)} {ok : State (machine env) → Action (machine env) → Prop}
  {a : Action (machine env)}

structure Blank (q : ℕ) (w : World) : Prop where
  session : w.sessions q = {}
  lockless : Lockless q w

theorem Blank.finish_eq (blank : Blank q w) : w.finish q = w := by
  have sessions : Function.update w.sessions q {} = w.sessions := by
    rw [← blank.session]
    exact Function.update_eq_self q w.sessions
  have rowLocks : (fun x => (w.rowLocks x).filter (·.1 ≠ q)) = w.rowLocks := by
    funext x
    apply List.filter_eq_self.2
    intro holder held
    have other : holder.1 ≠ q := fun same => blank.lockless.rowLocks x holder.2 (same ▸ held)
    simpa using other
  have keyLocks : (fun key => if w.keyLocks key = some q then none else w.keyLocks key) = w.keyLocks := by
    funext key
    exact if_neg (blank.lockless.keyLocks key)
  unfold World.finish
  rw [sessions, rowLocks, keyLocks]

theorem Blank.apart (blank : Blank q w) (apart : World.Apart q w w') : Blank q w' where
  session := apart.session.trans blank.session
  lockless := ⟨fun x mode held => blank.lockless.rowLocks x mode ((apart.rowLocks x mode).1 held),
    fun key held => blank.lockless.keyLocks key ((apart.keyLocks key).1 held)⟩

theorem exec_reads {choice : Choice} {result : stmt.Result} (reads : ¬stmt.Writes)
    (executed : exec env p stmt choice w = some (result, w')) : w.SameBooks w' := by
  cases stmt with
  | selectAccount | sumEntries =>
    cases executed
    rfl
  | redisGet | redisSet => cases choice <;> cases executed <;> rfl
  | _ => exact absurd trivial reads

theorem reads_of_runs (runs : (machine env).Runs ok ((machine env).initial w) s) {proc : Proc (machine env)}
    (found : s.procs p = some proc) (reader : proc.request.ReadsCache) : proc.rest.Never Stmt.Writes := by
  have body : ∀ request : Request, request.ReadsCache → (body env request).Never Stmt.Writes := by
    intro request reader
    cases request with
    | getBalance x => exact getBalance_never x
    | _ => exact reader.elim
  exact Machine.Runs.programs (M := machine env)
    (Φ := fun request prog => Request.ReadsCache request → Prog.Never (L := language) Stmt.Writes prog) body
    (fun request stmt next result _ before reader => (before reader).2 result) (fun _ _ => trivial) runs p
      proc found reader

theorem blank_of_runs (opening : w.Opening) (runs : (machine env).Runs ok ((machine env).initial w) s) :
    ∀ q, (∀ proc, s.procs q = some proc → proc.request.ReadsCache) → Blank q s.world := by
  induction runs with
  | refl =>
    intro q _
    refine ⟨opening.sessions q, fun x mode held => ?_, fun key held => ?_⟩
    · change (q, mode) ∈ w.rowLocks x at held
      rw [opening.rowLocks x] at held
      cases held
    · cases (opening.keyLocks key).symm.trans held
  | @tail s t runs stepped ih =>
    obtain ⟨a, _, stepped⟩ := stepped
    intro q reader
    have before : ∀ proc, s.procs q = some proc → proc.request.ReadsCache := by
      intro proc found
      obtain ⟨after, found', same⟩ := Machine.request_of_step stepped found
      exact same ▸ reader after found'
    have blank := ih q before
    by_cases own : ∃ choice, a = .step q choice
    · obtain ⟨choice, rfl⟩ := own
      obtain ⟨proc, stmt, next, result, w', found, rest, executed, rfl⟩ := Machine.step_own stepped
      have reads := reads_of_runs runs found (before proc found)
      rw [rest] at reads
      have same := exec_reads reads.1 executed
      unfold World.SameBooks at same
      rw [← same]
      exact ⟨blank.session, blank.lockless.rowLocks, blank.lockless.keyLocks⟩
    · by_cases closed : a = .close q
      · subst closed
        obtain ⟨proc, found, finished, rfl⟩ := Machine.step_close stepped
        have same : (machine env).close q s.world = s.world := blank.finish_eq
        rw [same]
        exact blank
      · exact blank.apart (apart_of_step stepped (fun choice same => own ⟨choice, same⟩) closed)

theorem hushed_of_runs {p : ℕ} {proc : Proc (machine env)} (opening : w.Opening)
    (runs : (machine env).Runs ok ((machine env).initial w) s) (stepped : (machine env).step s a = some t)
    (found : s.procs p = some proc) (reader : proc.request.ReadsCache)
    (own : (∃ choice, a = .step p choice) ∨ a = .close p) :
    World.SameBooks s.world t.world := by
  rcases own with ⟨choice, same⟩ | same
  · subst same
    obtain ⟨proc', stmt, next, result, w', found', rest, executed, rfl⟩ := Machine.step_own stepped
    cases found.symm.trans found'
    have reads := reads_of_runs runs found reader
    rw [rest] at reads
    exact exec_reads reads.1 executed
  · subst same
    obtain ⟨proc', found', finished, rfl⟩ := Machine.step_close stepped
    have blank : Blank p s.world := blank_of_runs opening runs p fun other listed => by
      cases found.symm.trans listed
      exact reader
    have same : (machine env).close p s.world = s.world := blank.finish_eq
    rw [same]
    exact World.SameBooks.equivalence.refl _

structure Offline (env : Deployment) (s : State (machine env)) (a : Action (machine env)) : Prop where
  starts : ∀ p request, a = .start p request → ¬request.ReadsCache
  down : ∀ p choice stmt, a = .step p choice → nextStmt p s = some stmt → stmt.isRedis → choice = .redisDown

theorem Offline.of_quiet (quiet : (cacheAside env).Quiet Request.ReadsCache s a) : Offline env s a where
  starts := quiet.starts
  down p choice stmt same next redis := by
    obtain ⟨proc, rest, found, call⟩ := nextStmt_cases next
    exact quiet.fails p choice proc stmt rest same found call redis

/-- Whatever Redis has answered and whoever has read balances, the same books and the same other answers can
come about with Redis down. -/
theorem redis_irrelevant (opening : w.Opening) (runs : (machine env).Runs ok ((machine env).initial w) s) :
    ∃ t : State (machine env), (machine env).Runs (Offline env) ((machine env).initial w) t ∧
      { (s.world : World) with redis := World.redis t.world } = t.world ∧
      ∀ p request, requestOf p s = some request → ¬request.ReadsCache → requestOf p t = some request ∧
        ∀ result, answer p s = some result → result ≠ .error .failure → answer p t = some result := by
  obtain ⟨t, mirroring, mirrors⟩ := Aside.mirror_of_runs (A := cacheAside env) (fun request => indifferent_body)
    (fun runs stepped found reader own => hushed_of_runs opening runs stepped found reader own) runs
  refine ⟨t, Machine.Runs.mono (fun s a quiet => Offline.of_quiet quiet) mirroring, mirrors.world, ?_⟩
  intro p request asked books
  cases found : s.procs p with
  | none =>
    rw [requestOf, found] at asked
    cases asked
  | some proc =>
    obtain rfl : proc.request = request := Option.some.inj ((requestOf_eq found).symm.trans asked)
    obtain ⟨proc', found', same, pair⟩ := mirrors.pair p proc found books
    refine ⟨(requestOf_eq found').trans (congrArg some same), fun result answered alive => ?_⟩
    cases result with
    | ok value =>
      rw [answer_eq_ok found answered] at pair
      rw [answer, found']
      simp only [pair.value]
    | error error =>
      rw [answer_eq_error found answered] at pair
      have survives : error ≠ (machine env).failure := fun failure => alive (congrArg Except.error failure)
      rw [answer, found']
      simp only [pair.error survives]

end Runs

/-- Alice deposits a rupee and reads her balance, which goes through the cache: the deposit could have been
answered the same with Redis down. -/
theorem redis_irrelevant_sample : ∃ s : State (machine sample),
    reply 0 s = some (.ok (.deposit 10 2 oneRupee.value "POSTED")) ∧
    (World.redis s.world (balanceCacheKey 2)).isSome ∧
      ∃ t : State (machine sample), (machine sample).Runs (Offline sample) ((machine sample).initial bank) t ∧
        { (s.world : World) with redis := World.redis t.world } = t.world ∧
        ∀ p request, requestOf p s = some request → ¬request.ReadsCache → requestOf p t = some request ∧
          ∀ result, answer p s = some result → result ≠ .error .failure → answer p t = some result := by
  have executed : ((machine sample).run (fun _ _ => true) ((machine sample).initial bank)
      (deposit 0 oneRupee ++ .start 1 (.getBalance 2) :: List.replicate 4 (.step 1 .proceed))).map
      (fun s => (reply 0 s, (World.redis s.world (balanceCacheKey 2)).isSome)) =
        some (some (.ok (.deposit 10 2 oneRupee.value "POSTED")), true) := by
    decide +kernel
  obtain ⟨s, runs, observed⟩ := Machine.Runs.of_observed _ (fun _ _ _ => trivial) executed
  simp only [Prod.mk.injEq] at observed
  exact ⟨s, observed.1, observed.2, redis_irrelevant bank_opening runs⟩

end LedgerFlow.Ledger
