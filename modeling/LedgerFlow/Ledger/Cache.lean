import LedgerFlow.Ledger.Runs

/-! The balance cache next to concurrent postings: a cached balance is the committed one or about to be
deleted, as long as no sum is written to the cache late. -/

namespace LedgerFlow.Ledger
open Accounts Outbox Concurrency

/-- The cached text is the committed balance of the account. -/
def Tables.Shows (db : Tables) (x : UUID) (value : String) : Prop :=
  ∃ d, Decimal.ofStr value = some (.finite d) ∧ d.toRat = db.balance x / 100

theorem Tables.shows_of_amounts {db db' : Tables} {x : UUID} (same : db'.amounts x = db.amounts x) :
    db'.Shows x (coalesceSum (db.amounts x)).str :=
  ⟨_, Decimal.ofStr_str _, by rw [← Tables.total_toRat, same]⟩

theorem balanceCacheKey_injective : Function.Injective balanceCacheKey := by
  intro a b same
  have texts := congrArg String.toList same
  simp only [balanceCacheKey, String.toList_append, List.append_assoc] at texts
  exact UUID.str_injective (String.toList_inj.1 (List.append_cancel_right (List.append_cancel_left texts)))

variable {env : Deployment} {w w' : World} {s t : State (machine env)} {p : ℕ} {stmt : Stmt} {choice : Choice}
  {result : stmt.Result}

theorem exec_redis (executed : exec env p stmt choice w = some (result, w')) :
    w'.redis = w.redis ∨
    (∃ key value, stmt = .redisSet key value ∧
      w' = { w with redis := Function.update w.redis key (some value) }) ∨
    (∃ key, stmt = .redisDelete key ∧ w' = { w with redis := Function.update w.redis key none }) := by
  cases stmt with
  | redisSet key value =>
    cases choice <;> simp only [exec] at executed <;> cases executed
    · exact .inr (.inl ⟨key, value, rfl, rfl⟩)
    · exact .inr (.inl ⟨key, value, rfl, rfl⟩)
    · exact .inl rfl
  | redisDelete key =>
    cases choice <;> simp only [exec] at executed <;> cases executed
    · exact .inr (.inr ⟨key, rfl, rfl⟩)
    · exact .inr (.inr ⟨key, rfl, rfl⟩)
    · exact .inl rfl
  | _ => exact .inl (exec_frame executed).2

theorem exec_redisDelete {key : String} {result : (Stmt.redisDelete key).Result} (up : choice ≠ .redisDown)
    (executed : exec env p (.redisDelete key) choice w = some (result, w')) : w'.redis key = none := by
  cases choice <;> simp only [exec] at executed
  · cases executed
    exact Function.update_self ..
  · cases executed
    exact Function.update_self ..
  · exact absurd rfl up

theorem answered_of_exec (up : choice ≠ .redisDown) (executed : exec env p stmt choice w = some (result, w')) :
    answered stmt result := by
  cases stmt with
  | redisGet key | redisSet key value | redisDelete key =>
    cases choice <;> simp only [exec] at executed
    · cases executed
      first | exact ⟨_, rfl⟩ | rfl
    · cases executed
      first | exact ⟨_, rfl⟩ | rfl
    · exact absurd rfl up
  | _ => trivial

/-- Some call has its deletion of the cached balance of `x` ahead of it. -/
def Deleting (x : UUID) (s : State (machine env)) : Prop := ∃ p proc, s.procs p = some proc ∧ Deletes x proc.rest

structure Answering (a : Action (machine env)) : Prop where
  unfailing : ∀ p, a ≠ .abort p
  answering : ∀ p, a ≠ .step p .redisDown

/-- When a sum is written to the cache, nothing was committed on the account since it was read,
or some call has yet to delete the cached balance. -/
structure Timely (s : State (machine env)) (a : Action (machine env)) : Prop extends Answering a where
  timely : ∀ p choice proc x value (w₁ : World), a = .step p choice → s.procs p = some proc →
    nextStmt p s = some (.redisSet (balanceCacheKey x) value) → (Stmt.sumEntries x, w₁) ∈ proc.past →
    ¬s.world.db.IsSystemCash x → s.world.db.amounts x = w₁.db.amounts x ∨ Deleting x s

def CacheCovered (s : State (machine env)) : Prop :=
  ∀ x value, ¬s.world.db.IsSystemCash x → s.world.redis (balanceCacheKey x) = some value →
    s.world.db.Shows x value ∨ Deleting x s

theorem Deleting.advance {x : UUID} {proc : Proc (machine env)} {next : stmt.Result → Code Value}
    (deleting : Deleting x s) (found : s.procs p = some proc) (rest : proc.rest = .call stmt next)
    (answer : answered stmt result) {past : List (Stmt × World)} :
    stmt = .redisDelete (balanceCacheKey x) ∨ Deleting x (⟨w', Function.update s.procs p
      (some { proc with past := past, rest := next result })⟩ : State (machine env)) := by
  obtain ⟨q, writer, found', deletes⟩ := deleting
  by_cases same : q = p
  · subst same
    cases found.symm.trans found'
    rw [rest] at deletes
    rcases deletes with now | later
    · exact .inl now
    · exact .inr ⟨q, _, Function.update_self .., later result answer⟩
  · exact .inr ⟨q, writer, by simpa [Function.update_of_ne same] using found', deletes⟩

theorem CacheCovered.step {a : Action (machine env)} (covered : (contract env fun _ => True).Covers Unused s)
    (cached : CacheCovered s) (timely : Timely s a) (stepped : (machine env).step s a = some t) : CacheCovered t := by
  rcases Machine.step_cases stepped with ⟨q, request, rfl, fresh, rfl⟩ |
    ⟨q, choice, proc, stmt, next, result, w', rfl, found, rest, executed, rfl⟩ |
    ⟨q, proc, rfl, found, running, rfl⟩ | ⟨q, proc, rfl, found, finished, rfl⟩ | ⟨e, w', rfl, ticked, rfl⟩
  · intro x value other hit
    refine (cached x value other hit).imp id fun ⟨r, writer, found, deletes⟩ => ⟨r, writer, ?_, deletes⟩
    have different : r ≠ q := fun same => by simp [same, fresh] at found
    simpa [Function.update_of_ne different] using found
  · intro x value other hit
    have guar := ((sound env _).guar_of_step covered found rest executed).1
    have up : choice ≠ Choice.redisDown := fun down => timely.answering q (by rw [down])
    have answer : answered stmt result := answered_of_exec up executed
    have another : stmt ≠ Stmt.redisDelete (balanceCacheKey x) := by
      rintro rfl
      rw [show w'.redis (balanceCacheKey x) = none from exec_redisDelete up executed] at hit
      cases hit
    have user : ¬s.world.db.IsSystemCash x := by
      obtain ⟨rows, grown⟩ := grows_of_step covered stepped
      exact fun cash => other (grown ▸ cash.append)
    -- a posting on the account has its deletion ahead; without one the balance stays as it was
    have kept : s.world.db.Shows x value ∨ Deleting x s →
        Tables.Shows w'.db x value ∨ Deleting x (⟨w', Function.update s.procs q
          (some { proc with past := (stmt, s.world) :: proc.past, rest := next result })⟩ : State
            (machine env)) := by
      rintro (shows | deleting)
      · by_cases touched : w'.db.amounts x = s.world.db.amounts x
        · obtain ⟨d, read, sum⟩ := shows
          exact .inl ⟨d, read, by rw [sum, Tables.balance, Tables.balance, touched]⟩
        · exact .inr ⟨q, _, Function.update_self .., guar.deletes x other touched⟩
      · exact .inr ((deleting.advance found rest answer).resolve_left another)
    rcases exec_redis executed with same | ⟨key, written, rfl, rfl⟩ | ⟨key, rfl, rfl⟩
    · exact kept (cached x value user (same ▸ hit))
    · by_cases mine : key = balanceCacheKey x
      · subst mine
        obtain ⟨y, w₁, equal, sum, summed⟩ := guar.caches _ _ next rest
        cases balanceCacheKey_injective equal
        have stored : written = value := by simpa using hit
        rcases timely.timely q choice proc x written w₁ rfl found (nextStmt_eq found rest) summed
          user with same | deleting
        · exact kept (.inl (stored ▸ sum ▸ Tables.shows_of_amounts same))
        · exact kept (.inr deleting)
      · exact kept (cached x value user (by simpa [Function.update_of_ne (Ne.symm mine)] using hit))
    · have elsewhere : balanceCacheKey x ≠ key := fun same => another (by rw [same])
      exact kept (cached x value user (by simpa [Function.update_of_ne elsewhere] using hit))
  · exact absurd rfl (timely.unfailing q)
  · exact cached
  · cases ticked
    exact cached

/-- Whenever no call is in progress, the cached balance of every account but the system
account is absent or the committed one. -/
def CacheCoherent (env : Deployment) (ok : State (machine env) → Action (machine env) → Prop) : Prop :=
  ∀ {w : World} {s : State (machine env)}, w.Opening →
    (∀ x value, w.redis (balanceCacheKey x) = some value → w.db.Shows x value) →
    (machine env).Runs ok ((machine env).initial w) s →
      (∀ p proc, s.procs p = some proc → proc.rest.Finished) →
    ∀ x value, ¬s.world.db.IsSystemCash x → s.world.redis (balanceCacheKey x) = some value →
      s.world.db.Shows x value

theorem cacheCovered_of_runs (opening : w.Opening)
    (start : ∀ x value, w.redis (balanceCacheKey x) = some value → w.db.Shows x value)
    (runs : (machine env).Runs Timely ((machine env).initial w) s) : CacheCovered s := by
  induction runs with
  | refl => exact fun x value _ hit => .inl (start x value hit)
  | tail runs stepped ih =>
    obtain ⟨a, timely, stepped⟩ := stepped
    exact CacheCovered.step (covers _ (fun _ _ _ _ => trivial) opening runs) ih timely stepped

theorem cache_coherent (env : Deployment) : CacheCoherent env Timely := by
  intro w s opening start runs quiet x value other hit
  refine (cacheCovered_of_runs opening start runs x value other hit).resolve_right
    fun ⟨p, proc, found, deletes⟩ => ?_
  have finished := quiet p proc found
  cases rest : proc.rest <;> simp_all [Deletes, Prog.Inevitably, Prog.Finished]

theorem quiet_of_answers {allow : State (machine sample) → Action (machine sample) → Bool}
    {actions : List (Action (machine sample))} {s : State (machine sample)}
    (executed : (machine sample).run allow ((machine sample).initial bank) actions = some s) (calls : List ℕ)
    (started : ∀ p request, .start p request ∈ actions → p ∈ calls)
    (answered : ∀ p ∈ calls, (answer p s).isSome) :
    ∀ p proc, s.procs p = some proc → proc.rest.Finished := by
  intro p proc found
  by_cases known : p ∈ calls
  · exact finished_of_answer (answered p known) found
  · have idle := Machine.procs_of_run executed (p := p) rfl fun a member request same =>
      known (started p request (same ▸ member))
    rw [idle] at found
    cases found

def readBeforeAndAfter : List (Action (machine sample)) :=
  [.start 0 (.getBalance 2), .step 0 .proceed, .step 0 .proceed, .step 0 .proceed, .step 0 .proceed] ++
    deposit 1 oneRupee ++
    [.start 2 (.getBalance 2), .step 2 .proceed, .step 2 .proceed, .step 2 .proceed, .step 2 .proceed]

def cachesInTime : State (machine sample) → Action (machine sample) → Bool
  | _, .abort _ => false
  | _, .step _ .redisDown => false
  | s, .step p _ =>
    match nextStmt p s with
    | some (.redisSet _ _) => (s.procs p).all fun proc =>
      proc.past.all fun executed => (executed.2 : World).db.entries = (s.world : World).db.entries
    | _ => true
  | _, _ => true

theorem cache_coherent_sample : ∃ s : State (machine sample), s.world.db.balance 2 = 10100 ∧
    s.world.redis (balanceCacheKey 2) = some "101.00" ∧ s.world.db.Shows 2 "101.00" := by
  have executed : ((machine sample).run cachesInTime ((machine sample).initial bank) readBeforeAndAfter).map (fun s =>
      ((List.range 3).all fun p => (answer p s).isSome, (s.world : World).db.balance 2,
        (s.world : World).redis (balanceCacheKey 2), (s.world : World).db.accounts)) =
      some (true, 10100, some "101.00", bank.db.accounts) := by
    decide +kernel
  obtain ⟨s, executed, observed⟩ := Option.map_eq_some_iff.1 executed
  simp only [Prod.mk.injEq] at observed
  obtain ⟨answered, balance, cached, accounts⟩ := observed
  have permits : ∀ s a, cachesInTime s a → Timely s a := by
    intro s a permitted
    refine ⟨⟨fun p same => ?_, fun p same => ?_⟩,
      fun p choice proc x value w₁ same found next summed _ => ?_⟩
    · subst same
      cases permitted
    · subst same
      cases permitted
    · subst same
      cases choice with
      | redisDown => cases permitted
      | proceed | uuid =>
        have unchanged : proc.past.all fun executed =>
            (executed.2 : World).db.entries = (s.world : World).db.entries := by
          simpa [cachesInTime, next, found] using permitted
        have same := of_decide_eq_true (List.all_eq_true.1 unchanged _ summed)
        exact .inl (by rw [Tables.amounts, Tables.amounts, ← same])
  have quiet := quiet_of_answers executed (List.range 3) (fun p request member => by
    simp only [readBeforeAndAfter, deposit, List.cons_append, List.nil_append, List.mem_cons, reduceCtorEq,
      List.not_mem_nil, false_or, or_false] at member
    rcases member with same | same | same <;> cases same <;> simp) (List.all_eq_true.1 answered)
  exact ⟨s, balance, cached, cache_coherent sample bank_opening (fun x value hit => by simp [bank] at hit)
    (.of_run permits executed) quiet 2 _ (alice_not_cash accounts) cached⟩

/-- A query that sums the balance before the deposit and caches the sum after it. -/
def readAroundDeposit : List (Action (machine sample)) :=
  [.start 0 (.getBalance 2), .step 0 .proceed, .step 0 .proceed, .step 0 .proceed] ++ deposit 1 oneRupee ++
    [.step 0 .proceed]

def answers : State (machine sample) → Action (machine sample) → Bool
  | _, .abort _ => false
  | _, .step _ .redisDown => false
  | _, _ => true

theorem cache_incoherent : ¬CacheCoherent sample fun _ a => Answering a := by
  intro coherent
  have executed : ((machine sample).run answers ((machine sample).initial bank) readAroundDeposit).map
      (fun s => ((answer 0 s).isSome,
        (answer 1 s).isSome, (s.world : World).redis (balanceCacheKey 2), (s.world : World).db.balance 2,
        (s.world : World).db.accounts)) = some (true, true, some "100.00", 10100, bank.db.accounts) := by
    decide +kernel
  obtain ⟨s, executed, observed⟩ := Option.map_eq_some_iff.1 executed
  simp only [Prod.mk.injEq] at observed
  obtain ⟨reader, writer, hit, balance, accounts⟩ := observed
  have runs : (machine sample).Runs (fun _ a => Answering a) ((machine sample).initial bank) s :=
    .of_run (fun s a permitted => ⟨fun p same => by simp [same, answers] at permitted,
      fun p same => by simp [same, answers] at permitted⟩) executed
  have quiet := quiet_of_answers executed [0, 1] (fun p request member => by
    simp only [readAroundDeposit, deposit, List.cons_append, List.nil_append, List.mem_cons, reduceCtorEq,
      List.not_mem_nil, false_or, or_false] at member
    rcases member with same | same <;> cases same <;> simp) (by simp [reader, writer])
  obtain ⟨d, read, sum⟩ := coherent bank_opening (fun x value hit => by simp [bank] at hit) runs quiet 2 "100.00"
    (alice_not_cash accounts) hit
  rw [show Decimal.ofStr "100.00" = some (.finite ⟨false, 10000, -2⟩) by decide +kernel] at read
  cases read
  rw [show s.world.db.balance 2 = 10100 from balance] at sum
  norm_num [Decimal.toRat, Decimal.magnitude] at sum

end LedgerFlow.Ledger
