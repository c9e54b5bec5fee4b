import LedgerFlow.Ledger.Runs
import LedgerFlow.Migrations.Versions

/-! The ledger on the tables that the migrations build: an amount below half a cent is posted as nothing. -/

namespace LedgerFlow.Ledger
open Accounts Outbox Concurrency World

/-- The service on the tables of a schema. -/
def Deployment.on (schema : Migrations.Schema) (env : Deployment) : Deployment :=
  { env with
    amountNonzero := schema.Has "ledger_entries" (.check "amount" "amount <> 0")
    foreignKeyLocks := schema.Has "ledger_entries" (.foreignKey "account_id" "accounts" "account_id") }

def deployed (env : Deployment) : Deployment := env.on Migrations.head

def Tables.NonZero (db : Tables) : Prop := ∀ entry ∈ db.entries, entry.amount.unscaled ≠ 0

/-- No call that comes to its commit is for less than half a cent. -/
def HalfCents (env : Deployment) (s : State (machine env)) (a : Action (machine env)) : Prop :=
  ∀ p request amount, CommitsFor p request s a → request.amount = some amount → 1 / 200 ≤ amount.value.toRat

variable {env : Deployment} {db rows : Tables} {request : Request} {w : World}
  {amount : Amount} {debit credit : Numeric 20 2}

theorem Stores.nonzero_iff (stored : Stores env amount.value debit credit) :
    debit.unscaled ≠ 0 ∧ credit.unscaled ≠ 0 ↔ 1 / 200 ≤ amount.value.toRat := by
  obtain ⟨negated, negation, debited⟩ := stored.debited
  rw [Numeric.nonzero_iff amount.sign amount.nonzero (by decide) (by decide) negation debited stored.credited,
    Decimal.toRat, amount.sign]
  norm_num

theorem Commits.stores (commits : Commits env db request rows) (posts : request.amount = some amount) :
    ∃ P : Posting, rows = P.rows ∧ Stores env amount.value P.debit P.credit := by
  cases commits with
  | opens _ _ same =>
    subst same
    cases posts
  | posts P posted =>
    obtain ⟨amount', posts', stored⟩ := posted.amount
    obtain rfl := Option.some.inj (posts.symm.trans posts')
    exact ⟨P, rfl, stored⟩

theorem Commits.entries_eq_nil (commits : Commits env db request rows) (posts : request.amount = none) :
    rows.entries = [] := by
  cases commits with
  | opens => rfl
  | posts P posted =>
    obtain ⟨amount, posts', _⟩ := posted.amount
    cases posts.symm.trans posts'

theorem Commits.nonzero_iff (commits : Commits env db request rows) :
    (db ++ rows).NonZero ↔ db.NonZero ∧ ∀ amount, request.amount = some amount →
    1 / 200 ≤ amount.value.toRat := by
  unfold Tables.NonZero
  rw [Tables.append_entries, List.forall_mem_append]
  apply and_congr_right
  intro _
  cases posts : request.amount with
  | none => simp [commits.entries_eq_nil posts]
  | some amount =>
    obtain ⟨P, rfl, stored⟩ := commits.stores posts
    simp only [Option.some.injEq, forall_eq', ← stored.nonzero_iff]
    simp [Posting.rows]

theorem nonzero_on_models {s : State (machine (env.on Migrations.models))} (opening : w.Opening)
    (before : w.db.NonZero) (runs : (machine (env.on Migrations.models)).Runs (machine _).anything
      ((machine _).initial w) s) : s.world.db.NonZero := by
  apply kept_of_runs opening before _ runs
  intro s a p request rows _ _ commits _ nonzero
  refine commits.nonzero_iff.2 ⟨nonzero, fun amount posts => ?_⟩
  obtain ⟨P, _, stored⟩ := commits.stores posts
  exact stored.nonzero_iff.1 (stored.accepted (decide_eq_true Migrations.models_check_amount))

theorem no_empty_postings {s : State (machine (deployed env))} (opening : w.Opening) (before : w.db.NonZero)
    (runs : (machine (deployed env)).Runs (HalfCents _) ((machine _).initial w) s) : s.world.db.NonZero := by
  apply kept_of_runs opening before _ runs
  intro s a p request rows large committed commits _ nonzero
  exact commits.nonzero_iff.2 ⟨nonzero, fun amount posts => large p request amount committed posts⟩

/-- The deployed tables do not have the check, and the entries of the ledger reference its accounts. -/
theorem deployed_eq : deployed env = { env with amountNonzero := false, foreignKeyLocks := true } := by
  have unchecked : decide (Migrations.head.Has "ledger_entries" (.check "amount" "amount <> 0")) = false :=
    decide_eq_false Migrations.head_not_checks
  have references := decide_eq_true Migrations.head_references_accounts
  unfold deployed Deployment.on
  rw [unchecked, references]

theorem bank_nonzero : bank.db.NonZero := by
  unfold Tables.NonZero
  decide

abbrev unchecked : Deployment := { sample with amountNonzero := false, foreignKeyLocks := true }

def deployedDeposit (p : ℕ) (amount : Amount) : List (Action (machine unchecked)) :=
  [.start p (.createDeposit 2 amount), .step p .proceed, .step p .proceed, .step p (.uuid 10), .step p .proceed,
    .step p .proceed, .step p .proceed, .step p .proceed, .step p (.uuid 11), .step p .proceed, .step p .proceed,
    .step p .proceed, .step p .proceed, .step p .proceed]

def halfCents : State (machine unchecked) → Action (machine unchecked) → Bool
  | s, .step p _ =>
    decide (∀ request ∈ requestOf p s, ∀ amount ∈ request.amount, 1 / 200 ≤ amount.value.toRat)
  | _, _ => true

theorem no_empty_postings_sample : ∃ s : State (machine (deployed sample)),
    s.world.db.entries.map (·.amount.unscaled) = [-10000, 10000, -100, 100] ∧ s.world.db.NonZero := by
  have nonzero : ∀ s : State (machine (deployed sample)),
      (machine (deployed sample)).Runs (HalfCents _) ((machine _).initial bank) s →
        s.world.db.NonZero :=
    fun _ runs => no_empty_postings bank_opening bank_nonzero runs
  rw [deployed_eq] at nonzero ⊢
  have executed : ((machine unchecked).run halfCents ((machine unchecked).initial bank)
      (deployedDeposit 0 oneRupee)).map
      (fun s => (s.world : World).db.entries.map (·.amount.unscaled)) = some [-10000, 10000, -100, 100] := by
    decide +kernel
  have permits : ∀ s a, halfCents s a = true → HalfCents unchecked s a := by
    intro s a allowed p request amount committed posts
    obtain ⟨choice, rfl⟩ := committed.own
    exact of_decide_eq_true allowed request committed.asked amount posts
  obtain ⟨s, runs, observed⟩ := Machine.Runs.of_observed (HalfCents unchecked) permits executed
  exact ⟨s, observed, nonzero s runs⟩

def tiny : Amount := ⟨⟨false, 4, -3⟩, rfl, by decide⟩

/-- A deposit of 0.004 is posted as two empty entries. -/
theorem not_no_empty_postings : ¬∀ s : State (machine (deployed sample)),
    (machine (deployed sample)).Runs (machine _).anything ((machine _).initial bank) s →
      s.world.db.NonZero := by
  rw [deployed_eq]
  intro all
  have executed : ((machine unchecked).run (fun _ _ => true) ((machine unchecked).initial bank)
      (deployedDeposit 0 tiny)).map
      (fun s => (s.world : World).db.entries.map (·.amount.unscaled)) = some [-10000, 10000, 0, 0] := by
    decide +kernel
  obtain ⟨s, runs, observed⟩ := Machine.Runs.of_observed _ (fun _ _ _ => trivial) executed
  have empty : 0 ∈ s.world.db.entries.map (·.amount.unscaled) := by
    rw [observed]
    decide
  obtain ⟨entry, member, zero⟩ := List.mem_map.1 empty
  exact all s runs entry member zero

end LedgerFlow.Ledger
