import LedgerFlow.Ledger.Reporting

/-! The two parties of a transaction: they differ, and the money moves from one to the other, unless a deposit or a
withdrawal is made on the system account. -/

namespace LedgerFlow.Ledger
open Accounts Outbox Concurrency World

/-- The two entries of each transaction are on different accounts. -/
def Tables.TwoSided (db : Tables) : Prop :=
  ∀ transaction ∈ db.transactions, ∃ debit credit,
    db.entriesOf transaction.transactionId = [debit, credit] ∧ debit.accountId ≠ credit.accountId

/-- The call of process `p` has changed the sum of the account by so many cents, when it committed. -/
def Changed (env : Deployment) (w : World) (s : State (machine env)) (p : ℕ) (request : Request)
    (x : UUID) (cents : ℤ) : Prop :=
  ∃ u t a, (machine env).Runs (machine env).anything ((machine env).initial w) u ∧ CommitsFor p request u a ∧
    (machine env).step u a = some t ∧ (machine env).Runs (machine env).anything t s ∧
    t.world.db.balance x = u.world.db.balance x + cents

/-- Every transaction has two parties, a deposit that has returned has raised the sum of its account by the stored
amount, and a withdrawal has lowered it. -/
structure MovesMoney (env : Deployment) (w : World) (s : State (machine env)) : Prop where
  twoSided : s.world.db.TwoSided
  raised : ∀ p x amount value, requestOf p s = some (.createDeposit x amount) → answer p s = some (.ok value) →
    ∃ stored, Numeric.cast 20 2 amount.value = some stored ∧ 0 ≤ stored.unscaled ∧
      Changed env w s p (.createDeposit x amount) x stored.unscaled
  lowered : ∀ p x amount value, requestOf p s = some (.createWithdrawal x amount) →
    answer p s = some (.ok value) →
    ∃ negated stored, amount.value.neg = some negated ∧ Numeric.cast 20 2 negated = some stored ∧
      stored.unscaled ≤ 0 ∧ Changed env w s p (.createWithdrawal x amount) x stored.unscaled

/-- No deposit or withdrawal that comes to its commit is made on an account that the
lookup of the system account finds. -/
def SparesCash (env : Deployment) (s : State (machine env)) (a : Action (machine env)) : Prop :=
  ∀ p request x, CommitsFor p request s a → request.holder = some x → ¬s.world.db.IsSystemCash x

variable {env : Deployment} {db rows : Tables} {request : Request} {P : Posting} {w : World}
  {s t u : State (machine env)} {p : ℕ} {x : UUID} {amount : Amount}

theorem PostedBy.apart (posted : PostedBy env db request P)
    (spares : ∀ x, request.holder = some x → ¬db.IsSystemCash x) : P.payer ≠ P.payee := by
  cases posted with
  | deposit account system _ _ _ _ _ _ _ _ cash isCash =>
    intro same
    exact spares account.accountId rfl ⟨system, cash, same, isCash⟩
  | withdrawal account system _ _ _ _ _ _ _ _ _ cash isCash =>
    intro same
    exact spares account.accountId rfl ⟨system, cash, same.symm, isCash⟩
  | transfer _ _ _ _ _ _ _ _ _ _ _ _ different => exact different

theorem Commits.twoSided (commits : Commits env db request rows) (consistent : db.Consistent)
    (spares : ∀ x, request.holder = some x → ¬db.IsSystemCash x) (before : db.TwoSided) :
    (db ++ rows).TwoSided := by
  intro transaction member
  rcases List.mem_append.1 member with old | new
  · obtain ⟨debit, credit, entries, apart⟩ := before transaction old
    exact ⟨debit, credit, by rw [commits.entriesOf old, entries], apart⟩
  · cases commits with
    | opens => cases new
    | posts P posted fresh =>
      have same := List.mem_singleton.1 new
      subst same
      exact ⟨_, _, consistent.entriesOf_posting fresh, posted.apart spares⟩

theorem twoSided_of_runs (opening : w.Opening) (twoSided : w.db.TwoSided)
    (runs : (machine env).Runs (SparesCash env) ((machine env).initial w) s) : s.world.db.TwoSided := by
  apply kept_of_runs opening twoSided _ runs
  intro s a p request rows spares committed commits consistent before
  exact commits.twoSided consistent (fun x => spares p request x committed) before

theorem Commits.deposited {transaction : Transaction} (commits : Commits env db (.createDeposit x amount) rows)
    (new : transaction ∈ rows.transactions) (other : ¬db.IsSystemCash x) :
    ∃ stored, Numeric.cast 20 2 amount.value = some stored ∧ rows.balance x = stored.unscaled := by
  cases commits with
  | opens => cases new
  | posts P posted =>
    have apart := posted.apart fun y named => by cases named; exact other
    cases posted with
    | deposit account system _ _ debit credit _ _ _ _ _ _ _ _ stored =>
      refine ⟨credit, stored.credited, ?_⟩
      rw [Posting.balance_rows, if_neg apart, if_pos rfl, zero_add]

theorem Commits.withdrawn {transaction : Transaction} (commits : Commits env db (.createWithdrawal x amount) rows)
    (new : transaction ∈ rows.transactions) (other : ¬db.IsSystemCash x) :
    ∃ negated stored, amount.value.neg = some negated ∧ Numeric.cast 20 2 negated = some stored ∧
      rows.balance x = stored.unscaled := by
  cases commits with
  | opens => cases new
  | posts P posted =>
    have apart := posted.apart fun y named => by cases named; exact other
    cases posted with
    | withdrawal account system _ _ debit credit _ _ _ _ _ _ _ _ _ stored =>
      obtain ⟨negated, negation, debited⟩ := stored.debited
      refine ⟨negated, debit, negation, debited, ?_⟩
      rw [Posting.balance_rows, if_pos rfl, if_neg (Ne.symm apart), add_zero]

theorem Amount.debit_nonpos {negated : Decimal} {stored : Numeric 20 2} (amount : Amount)
    (negation : amount.value.neg = some negated) (debited : Numeric.cast 20 2 negated = some stored) :
    stored.unscaled ≤ 0 := by
  rw [Numeric.cast_neg_unscaled amount.sign amount.nonzero negation debited, Int.neg_nonpos_iff]
  have nonneg := Numeric.round_monotone (mul_nonneg amount.value.rounded_nonneg (by norm_num : (0 : ℚ) ≤ 10 ^ 2))
  simpa using nonneg

theorem Committed.changed (committed : Committed (SparesCash env) w p request rows u t s) :
    Changed env w s p request x (rows.balance x) := by
  obtain ⟨a, _, commits, stepped⟩ := committed.step
  refine ⟨u, t, a, committed.before.mono fun _ _ _ => trivial, commits, stepped,
    committed.after.mono fun _ _ _ => trivial, ?_⟩
  rw [committed.grown, Tables.balance_append]

theorem Committed.spares (committed : Committed (SparesCash env) w p request rows u t s)
    (named : request.holder = some x) : ¬u.world.db.IsSystemCash x := by
  obtain ⟨a, spares, commits, _⟩ := committed.step
  exact spares p request x commits named

theorem committed_of_answer {ok : State (machine env) → Action (machine env) → Prop} {value : Value}
    (opening : w.Opening)
    (runs : (machine env).Runs ok ((machine env).initial w) s) (asked : requestOf p s = some request)
    (answered : answer p s = some (.ok value)) (named : request.holder = some x) :
    ∃ transaction u t rows, Committed ok w p request rows u t s ∧ transaction ∈ rows.transactions := by
  obtain ⟨proc, found, same⟩ := Option.map_eq_some_iff.1 asked
  subst same
  obtain ⟨transaction, u, t, rows, _, committed, new⟩ :=
    committed_of_returned opening runs found (answer_eq_ok found answered) named
  exact ⟨transaction, u, t, rows, committed, new⟩

theorem moves_money (opening : w.Opening) (twoSided : w.db.TwoSided)
    (runs : (machine env).Runs (SparesCash env) ((machine env).initial w) s) : MovesMoney env w s where
  twoSided := twoSided_of_runs opening twoSided runs
  raised p x amount value asked answered := by
    obtain ⟨transaction, u, t, rows, committed, new⟩ := committed_of_answer opening runs asked answered rfl
    obtain ⟨stored, credited, balance⟩ := committed.commits.deposited new (committed.spares rfl)
    refine ⟨stored, credited, Numeric.cast_pos_nonneg amount.sign credited, ?_⟩
    rw [← balance]
    exact committed.changed
  lowered p x amount value asked answered := by
    obtain ⟨transaction, u, t, rows, committed, new⟩ := committed_of_answer opening runs asked answered rfl
    obtain ⟨negated, stored, negation, debited, balance⟩ := committed.commits.withdrawn new (committed.spares rfl)
    refine ⟨negated, stored, negation, debited, amount.debit_nonpos negation debited, ?_⟩
    rw [← balance]
    exact committed.changed

theorem bank_twoSided : bank.db.TwoSided := by
  intro transaction member
  have same := List.mem_singleton.1 member
  subst same
  exact ⟨⟨4, 1, ⟨-10000, by decide⟩⟩, ⟨4, 2, ⟨10000, by decide⟩⟩, rfl, by decide⟩

def sparesCash : State (machine sample) → Action (machine sample) → Bool
  | s, .step p _ => (s.world : World).db.accounts.all fun account =>
      !(account.isSystemCash && decide ((requestOf p s).bind Request.holder = some account.accountId))
  | _, _ => true

theorem sparesCash_of_allowed {s : State (machine sample)} {a : Action (machine sample)}
    (allowed : sparesCash s a = true) : SparesCash sample s a := by
  intro p request x committed named
  obtain ⟨choice, rfl⟩ := committed.own
  rintro ⟨account, member, rfl, cash⟩
  have other := List.all_eq_true.1 allowed account member
  simp [cash, committed.asked, named] at other

theorem moves_money_sample : ∃ s : State (machine sample),
    requestOf 0 s = some (.createDeposit 2 oneRupee) ∧ MovesMoney sample bank s := by
  have executed : ((machine sample).run sparesCash ((machine sample).initial bank) (deposit 0 oneRupee)).map
      (requestOf 0) = some (some (.createDeposit 2 oneRupee)) := by
    decide +kernel
  obtain ⟨s, runs, observed⟩ := Machine.Runs.of_observed (SparesCash sample)
    (fun _ _ => sparesCash_of_allowed) executed
  exact ⟨s, observed, moves_money bank_opening bank_twoSided runs⟩

def cashDeposit : List (Action (machine sample)) :=
  .start (0 : ℕ) (.createDeposit 1 oneRupee) :: (deposit 0 oneRupee).tail

/-- Both entries of a deposit into the system account are on it. -/
theorem not_moves_money : ¬∀ s : State (machine sample),
    (machine sample).Runs (machine sample).anything ((machine sample).initial bank) s →
    MovesMoney sample bank s := by
  intro all
  have executed : ((machine sample).run (fun _ _ => true) ((machine sample).initial bank) cashDeposit).map
      (fun s => ((s.world : World).db.transactions.map (·.transactionId),
        ((s.world : World).db.entriesOf 10).map (·.accountId))) = some ([4, 10], [1, 1]) := by
    decide +kernel
  obtain ⟨s, runs, observed⟩ := Machine.Runs.of_observed _ (fun _ _ _ => trivial) executed
  simp only [Prod.mk.injEq] at observed
  have listed : 10 ∈ s.world.db.transactions.map (·.transactionId) := by
    rw [observed.1]
    decide
  obtain ⟨transaction, member, same⟩ := List.mem_map.1 listed
  obtain ⟨debit, credit, entries, apart⟩ := (all s runs).twoSided transaction member
  have parties := observed.2
  rw [← same, entries] at parties
  simp only [List.map_cons, List.map_nil, List.cons.injEq, and_true] at parties
  exact apart (parties.1.trans parties.2.symm)

end LedgerFlow.Ledger
