import LedgerFlow.Ledger.Runs

/-! Balances: the entries of a transaction cancel unless its amount was rounded twice, and no account but the
system account is overdrawn. -/

namespace LedgerFlow.Ledger
open Accounts Outbox Concurrency

def Tables.posted (t : Tables) (transactionId : UUID) : ℤ :=
  ((t.entriesOf transactionId).map (·.amount.unscaled)).sum

/-- The entries of each transaction cancel, and so do all entries together. -/
structure Tables.Balanced (t : Tables) : Prop where
  each : ∀ transaction ∈ t.transactions, t.posted transaction.transactionId = 0
  all : (t.entries.map (·.amount.unscaled)).sum = 0

/-- The column holds the amount and its negation, and keeps different magnitudes of them: the amount lies below
an odd multiple of half a cent by no more than half a unit of its 28th significant digit. -/
def Request.Splits (env : Deployment) (request : Request) : Prop :=
  ∃ amount debit credit, request.amount = some amount ∧ Stores env amount.value debit credit ∧
    Numeric.BelowHalf 2 amount.value

variable {env : Deployment} {db db' : Tables} {request : Request} {P : Posting} {w : World} {s : State (machine env)}

@[simp] theorem Tables.posted_append (a b : Tables) (transactionId : UUID) :
    (a ++ b).posted transactionId = a.posted transactionId + b.posted transactionId := by
  simp [Tables.posted]

theorem Posting.posted_rows (transactionId : UUID) : P.rows.posted transactionId =
    if P.transaction.transactionId = transactionId then P.debit.unscaled + P.credit.unscaled else 0 := by
  rw [Tables.posted, Posting.entriesOf_rows]
  split_ifs <;> simp [Posting.rows]

/-- The two entries of a posting cancel exactly when its amount does not split. -/
theorem PostedBy.cancels_iff (posted : PostedBy env db request P) :
    P.debit.unscaled + P.credit.unscaled = 0 ↔ ¬request.Splits env := by
  obtain ⟨amount, same, stored⟩ := posted.amount
  obtain ⟨negated, negation, debited⟩ := stored.debited
  rw [Numeric.balanced_iff amount.sign amount.nonzero (by decide) (by decide) negation debited stored.credited]
  refine not_congr ⟨fun below => ⟨amount, _, _, same, stored, below⟩, ?_⟩
  rintro ⟨amount', _, _, same', _, below⟩
  rwa [Option.some.inj (same.symm.trans same')]

/-- Amounts of up to 28 significant digits do not split. -/
theorem Request.not_splits (exact : ∀ amount, request.amount = some amount →
    amount.value.digits ≤ Decimal.prec ∧ Decimal.etiny ≤ amount.value.exp) : ¬request.Splits env := by
  rintro ⟨amount, debit, credit, same, stored, below⟩
  obtain ⟨negated, negation, debited⟩ := stored.debited
  have fine := Numeric.fine_of_cast amount.sign amount.nonzero (by decide) (by decide) negation debited
  exact Numeric.not_belowHalf_of_digits fine (exact amount same).1 (exact amount same).2 below

theorem Commits.balanced {rows : Tables} (commits : Commits env db request rows) (consistent : db.Consistent)
    (balanced : db.Balanced) (whole : ¬request.Splits env) : (db ++ rows).Balanced := by
  cases commits with
  | opens =>
    refine ⟨fun transaction member => ?_, by simpa using balanced.all⟩
    simpa [Tables.posted, Tables.entriesOf] using balanced.each transaction (by simpa using member)
  | posts P posted fresh =>
    have cancels := posted.cancels_iff.2 whole
    refine ⟨fun transaction member => ?_, ?_⟩
    · rw [Tables.posted_append, Posting.posted_rows]
      rcases List.mem_append.1 member with old | new
      · rw [balanced.each transaction old]
        split_ifs <;> omega
      · rw [List.mem_singleton.1 new, if_pos rfl, Tables.posted,
          consistent.entriesOf_eq_nil (Tables.not_mem_transactions fresh)]
        simpa using cancels
    · have all := balanced.all
      simp only [Tables.append_entries, Posting.rows, List.map_append, List.sum_append, List.map_cons, List.map_nil,
        List.sum_cons, List.sum_nil]
      omega

/-- No call that comes to its commit has an amount that splits. -/
def unsplit (env : Deployment) (s : State (machine env)) (a : Action (machine env)) : Prop :=
  ∀ p request, CommitsFor p request s a → ¬request.Splits env

/-- In every run without a posting whose amount splits, the entries of every committed transaction cancel. -/
theorem balanced_of_unsplit (opening : w.Opening) (balanced : w.db.Balanced)
    (runs : (machine env).Runs (unsplit env) ((machine env).initial w) s) : s.world.db.Balanced := by
  refine kept_of_runs opening balanced ?_ runs
  intro s a p request rows whole committed commits consistent balanced
  exact commits.balanced consistent balanced (whole p request committed)

def storedAmounts (s : State (machine sample)) : List ℤ := (s.world : World).db.entries.map (·.amount.unscaled)

def belowHalf : Amount := ⟨⟨false, 1004999999999999999999999999999, -30⟩, rfl, by decide⟩

theorem bank_balanced : bank.db.Balanced := ⟨by decide, by decide⟩

def postsWhole : State (machine sample) → Action (machine sample) → Bool
  | s, .step p _ => decide (∀ request ∈ requestOf p s, ∀ amount ∈ request.amount,
      amount.value.digits ≤ Decimal.prec ∧ Decimal.etiny ≤ amount.value.exp)
  | _, _ => true

theorem deposit_balanced : ∃ s, (machine sample).Runs (unsplit sample) ((machine sample).initial bank) s ∧
    storedAmounts s = [-10000, 10000, -100, 100] ∧ s.world.db.Balanced := by
  have executed : ((machine sample).run postsWhole ((machine sample).initial bank) (deposit 0 oneRupee)).map
      storedAmounts = some [-10000, 10000, -100, 100] := by
    decide
  obtain ⟨s, runs, observed⟩ := Machine.Runs.of_observed (unsplit sample) (by
    intro s a allowed p request committed
    obtain ⟨choice, rfl⟩ := committed.own
    exact Request.not_splits (of_decide_eq_true allowed request committed.asked)) executed
  exact ⟨s, runs, observed, balanced_of_unsplit bank_opening bank_balanced runs⟩

/-- A deposit may commit a debit of 1.01 with a credit of 1.00. -/
theorem deposit_unbalanced : ∃ s, (machine sample).Runs (machine sample).anything
    ((machine sample).initial bank) s ∧
    storedAmounts s = [-10000, 10000, -101, 100] ∧ ¬s.world.db.Balanced := by
  have executed : ((machine sample).run (fun _ _ => true) ((machine sample).initial bank) (deposit 0 belowHalf)).map
      storedAmounts = some [-10000, 10000, -101, 100] := by
    decide
  obtain ⟨s, runs, observed⟩ := Machine.Runs.of_observed _ (fun _ _ _ => trivial) executed
  refine ⟨s, runs, observed, fun balanced => ?_⟩
  have all := balanced.all
  rw [show s.world.db.entries.map (·.amount.unscaled) = [-10000, 10000, -101, 100] from observed] at all
  exact absurd all (by decide)

/-- No call, at any point of any interleaving, takes an account other than the system account below zero. -/
theorem no_overdraft (opening : w.Opening)
    (runs : (machine env).Runs (machine env).anything ((machine env).initial w) s)
    (x : UUID) (other : ¬s.world.db.IsSystemCash x) (before : 0 ≤ w.db.balance x) :
    0 ≤ s.world.db.balance x := by
  have kept := kept_of_runs (I := fun db => ¬db.IsSystemCash x → 0 ≤ db.balance x) opening
      (fun _ => before) ?_ runs
  · exact kept other
  · intro s a p request rows _ _ commits _ nonneg other
    exact commits.balance_nonneg other (nonneg fun cash => other cash.append)

/-- Of two withdrawals that both want all that Alice has, the one that waits for the other is refused. -/
theorem withdrawals_no_overdraft : ∃ s,
    (machine sample).Runs (machine sample).anything ((machine sample).initial bank) s ∧
    storedAmounts s = [-10000, 10000, -10000, 10000] ∧ raisedBy 1 s = some (.valueError "Insufficient funds") ∧
    0 ≤ s.world.db.balance 2 := by
  have executed : ((machine sample).run (fun _ _ => true) ((machine sample).initial bank)
      (racingWithdrawals 0 1 hundred 10 11)).map
        (fun s => (storedAmounts s, raisedBy 1 s, (s.world : World).db.accounts)) =
      some ([-10000, 10000, -10000, 10000], some (.valueError "Insufficient funds"), bank.db.accounts) := by
    decide +kernel
  obtain ⟨s, runs, observed⟩ := Machine.Runs.of_observed _ (fun _ _ _ => trivial) executed
  simp only [Prod.mk.injEq] at observed
  obtain ⟨stored, refused, accounts⟩ := observed
  exact ⟨s, runs, stored, refused, no_overdraft bank_opening runs 2 (alice_not_cash accounts) (by decide)⟩

end LedgerFlow.Ledger
