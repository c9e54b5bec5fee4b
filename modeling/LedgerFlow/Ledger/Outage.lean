import LedgerFlow.Ledger.Coherence

/-! Redis outages: a balance that a failed deletion leaves in the cache is returned long after Redis has recovered. -/

namespace LedgerFlow.Ledger
open Accounts Outbox Concurrency

variable {env : Deployment} {w : World} {s : State (machine env)} {x : UUID}

/-- Calls run one after the other and PostgreSQL does not fail. Where Redis fails in a deletion, no cached
balance of a user that the call was still to delete is outdated. -/
structure LeavesNoneOutdated (s : State (machine env)) (a : Action (machine env)) : Prop extends OneAtATime s a where
  current : ∀ x, ¬s.world.db.IsSystemCash x → LeavesCurrent x s a

def CoherentForUsers (env : Deployment) (ok : State (machine env) → Action (machine env) → Prop) : Prop :=
  ∀ {w : World} {s t : State (machine env)} {a : Action (machine env)} {p : ℕ} {x : UUID} {d : Decimal},
    w.Opening → (∀ x text, w.redis (balanceCacheKey x) = some text → w.db.Shows x text) →
    (machine env).Runs ok ((machine env).initial w) s → ok s a → (machine env).step s a = some t →
    ¬t.world.db.IsSystemCash x → requestOf p t = some (.getBalance x) → answer p s = none →
    answer p t = some (.ok (.balance d)) → d.toRat = t.world.db.balance x / 100

theorem guarded_of_outages (opening : w.Opening)
    (start : ∀ text, w.redis (balanceCacheKey x) = some text → w.db.Shows x text)
    (runs : (machine env).Runs LeavesNoneOutdated ((machine env).initial w) s) (user : ¬s.world.db.IsSystemCash x) :
    Guarded x s := by
  induction runs with
  | refl => exact fun text hit => .inl (start text hit)
  | tail runs stepped ih =>
    obtain ⟨a, allowed, stepped⟩ := stepped
    obtain ⟨trace, traces⟩ := Machine.Runs.traces runs
    obtain ⟨rows, grown⟩ := grows_of_step (covers_all opening runs) stepped
    have before : ¬Tables.IsSystemCash _ x := fun cash => user (grown ▸ cash.append)
    have steady := (steady_of_runs (fun _ _ allowed => allowed.toOneAtATime) runs).2
    apply (ih before).step steady opening traces allowed.toOneAtATime (allowed.current x before) _ stepped
    intro p choice request y _ _ _ _ cash
    exact absurd cash before

/-- As long as no failed deletion leaves an outdated balance in the cache, failures of Redis do no harm. -/
theorem coherent_for_users (env : Deployment) : CoherentForUsers env LeavesNoneOutdated := by
  intro w s t a p x d opening start runs allowed stepped user asked unanswered returned
  apply reads_committed (fun db => ¬db.IsSystemCash x) opening (fun _ _ allowed => allowed.toOneAtATime)
    _ _ runs allowed stepped user asked unanswered returned
  · intro db rows user cash
    exact user cash.append
  · intro s runs user
    exact guarded_of_outages opening (start x) runs user

def inTurn (strict : Bool) : State (machine sample) → Action (machine sample) → Bool
  | s, .start _ _ => (List.range 3).all fun q => (s.procs q).all fun proc => decide proc.rest.Finished
  | s, .step p .redisDown =>
    match nextStmt p s with
    | some (.redisDelete _) => !strict
    | _ => true
  | _, .abort _ => false
  | _, _ => true

theorem oneAtATime_of_inTurn {strict : Bool} (s : State (machine sample)) (a : Action (machine sample))
    (unused : ∀ q, 3 ≤ q → s.procs q = none) (allowed : inTurn strict s a) : OneAtATime s a where
  unfailing p same := by
    subst same
    cases allowed
  completed p request same q proc found := by
    subst same
    have early : q < 3 := by
      by_contra late
      cases (unused q (by omega)).symm.trans found
    simp only [inTurn, List.all_eq_true, List.mem_range] at allowed
    have finished := allowed q early
    rw [found] at finished
    exact of_decide_eq_true finished

theorem leavesNoneOutdated_of_inTurn (s : State (machine sample)) (a : Action (machine sample))
    (unused : ∀ q, 3 ≤ q → s.procs q = none) (allowed : inTurn true s a) : LeavesNoneOutdated s a where
  toOneAtATime := oneAtATime_of_inTurn s a unused allowed
  current x _ p proc key text same _ next := by
    subst same
    simp [inTurn, next] at allowed

def deafQueries : List (Action (machine sample)) :=
  [.start 0 (.getBalance 2), .step 0 .redisDown, .step 0 .proceed, .step 0 .proceed, .step 0 .redisDown] ++
    deposit 1 oneRupee ++ [.start 2 (.getBalance 2), .step 2 .redisDown, .step 2 .proceed, .step 2 .proceed]

def answersAlice (strict : Bool) (d : Decimal) (cents : ℤ) (s : State (machine sample)) : Bool :=
  decide (lastAnswer (inTurn strict) 2 2 s = some (true, some (.getBalance 2), some d, cents)) &&
    ((machine sample).step s (.step 2 .proceed)).all fun t =>
      decide ((t.world : World).db.accounts = bank.db.accounts)

theorem answersAlice_eq {strict : Bool} {s : State (machine sample)} {d : Decimal} {cents : ℤ}
    (observed : answersAlice strict d cents s) :
    ∃ t, (machine sample).step s (.step 2 .proceed) = some t ∧ inTurn strict s (.step 2 .proceed) ∧
    answer 2 s = none ∧
      requestOf 2 t = some (.getBalance 2) ∧ answer 2 t = some (.ok (.balance d)) ∧
      t.world.db.balance 2 = cents ∧
      ¬t.world.db.IsSystemCash 2 := by
  simp only [answersAlice, Bool.and_eq_true] at observed
  obtain ⟨t, stepped, permitted, unanswered, asked, returned, sum⟩ := lastAnswer_eq (of_decide_eq_true observed.1)
  have accounts := observed.2
  rw [stepped] at accounts
  exact ⟨t, stepped, permitted, unanswered, asked, returned, sum, alice_not_cash (of_decide_eq_true accounts)⟩

theorem coherent_for_users_sample : ∃ (t : State (machine sample)) (d : Decimal),
    answer 2 t = some (.ok (.balance d)) ∧ t.world.db.balance 2 = 10100 ∧
    d.toRat = t.world.db.balance 2 / 100 := by
  have executed : ((machine sample).run (inTurn true) ((machine sample).initial bank) deafQueries).map
      (answersAlice true ⟨false, 10100, -2⟩ 10100) = some true := by
    decide +kernel
  obtain ⟨s, reached, observed⟩ := Option.map_eq_some_iff.1 executed
  obtain ⟨t, stepped, permitted, unanswered, asked, returned, sum, user⟩ := answersAlice_eq observed
  obtain ⟨runs, unused⟩ := Machine.Runs.of_run_below (n := 3) leavesNoneOutdated_of_inTurn
    (fun p request member => by
    simp only [deafQueries, deposit, List.cons_append, List.nil_append, List.mem_cons, reduceCtorEq, List.not_mem_nil,
      false_or, or_false] at member
    rcases member with same | same | same <;> cases same <;> omega) (fun _ _ => rfl) reached
  have allowed : LeavesNoneOutdated s (.step 2 .proceed) := leavesNoneOutdated_of_inTurn s _ unused permitted
  exact ⟨t, _, returned, sum, coherent_for_users sample bank_opening
    (fun x text hit => by simp [bank] at hit) runs allowed stepped user asked unanswered returned⟩

/-- A query that caches Alice's balance, a deposit whose deletion of the cached balance fails, and a query again. -/
def failedDeletion : List (Action (machine sample)) :=
  query 0 2 ++ [.step 0 .proceed] ++ (deposit 1 oneRupee).dropLast ++ [.step 1 .redisDown, .start 2 (.getBalance 2)]

/-- After one failed deletion the balance before the deposit is returned. -/
theorem not_coherent_for_users : ¬CoherentForUsers sample OneAtATime := by
  intro coherent
  have executed : ((machine sample).run (inTurn false) ((machine sample).initial bank) failedDeletion).map
      (answersAlice false ⟨false, 10000, -2⟩ 10100) = some true := by
    decide +kernel
  obtain ⟨s, reached, observed⟩ := Option.map_eq_some_iff.1 executed
  obtain ⟨t, stepped, permitted, unanswered, asked, returned, cents, user⟩ := answersAlice_eq observed
  obtain ⟨runs, unused⟩ := Machine.Runs.of_run_below (n := 3) oneAtATime_of_inTurn (fun p request member => by
    simp only [failedDeletion, query, deposit, List.dropLast, List.cons_append, List.nil_append,
      List.mem_cons, reduceCtorEq, List.not_mem_nil, false_or, or_false] at member
    rcases member with same | same | same <;> cases same <;> omega) (fun _ _ => rfl) reached
  have allowed : OneAtATime s (.step 2 .proceed) := oneAtATime_of_inTurn s _ unused permitted
  have sum := coherent bank_opening (fun x text hit => by simp [bank] at hit) runs allowed stepped user
      asked unanswered returned
  rw [cents] at sum
  norm_num [Decimal.toRat, Decimal.magnitude] at sum

end LedgerFlow.Ledger
