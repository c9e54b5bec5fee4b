import LedgerFlow.Ledger.Balances
import LedgerFlow.Ledger.Solvency

/-! No posting crosses currencies while the system account that is looked up has the currency of the account
that the call names, and then every currency is conserved by itself. -/

namespace LedgerFlow.Ledger
open Accounts Outbox Concurrency

namespace Tables

def currencyOf (t : Tables) (x : UUID) : Option String := (t.accounts.find? (·.accountId = x)).map (·.currency)

def CurrencyWise (t : Tables) : Prop :=
  ∀ a ∈ t.entries, ∀ b ∈ t.entries, a.transactionId = b.transactionId →
    t.currencyOf a.accountId = t.currencyOf b.accountId

instance decidableCurrencyWise (t : Tables) : Decidable t.CurrencyWise :=
  inferInstanceAs (Decidable (∀ a ∈ t.entries, ∀ b ∈ t.entries,
    a.transactionId = b.transactionId → t.currencyOf a.accountId = t.currencyOf b.accountId))

def currencyTotal (t : Tables) (currency : String) : ℤ :=
  ((t.entries.filter fun entry => t.currencyOf entry.accountId = some currency).map (·.amount.unscaled)).sum

theorem sum_of_groups {α κ : Type} [DecidableEq κ] (key : α → κ) (f : α → ℤ) (l : List α)
    (cancels : ∀ k, ((l.filter (key · = k)).map f).sum = 0) : (l.map f).sum = 0 := by
  obtain ⟨n, length⟩ : ∃ n, l.length = n := ⟨_, rfl⟩
  induction n using Nat.strong_induction_on generalizing l with
  | _ n ih =>
    cases l with
    | nil => rfl
    | cons a rest =>
      let others := (a :: rest).filter (key · ≠ key a)
      have shorter : others.length < n := by
        have fewer : others.length ≤ rest.length := by
          simp only [others, ne_eq, not_true_eq_false, decide_false, Bool.false_eq_true, not_false_eq_true,
            List.filter_cons_of_neg]
          exact List.length_filter_le ..
        simp only [List.length_cons] at length
        omega
      have none : (others.map f).sum = 0 := by
        refine ih _ shorter others (fun k => ?_) rfl
        rw [List.filter_filter]
        by_cases same : k = key a
        · rw [List.filter_eq_nil_iff.2 (by simp [same])]
          rfl
        · rw [← cancels k]
          refine congrArg (fun l => (l.map f).sum) (List.filter_congr fun b _ => ?_)
          by_cases grouped : key b = k <;> simp [grouped, same]
      have parts := List.sum_map_filter_add_sum_map_filter_not (key · = key a) f (a :: rest)
      rw [cancels (key a), zero_add] at parts
      rw [← parts]
      exact none

variable {t : Tables}

theorem CurrencyWise.conserved (wise : t.CurrencyWise) (consistent : t.Consistent)
    (cancels : ∀ transaction ∈ t.transactions, t.posted transaction.transactionId = 0) (currency : String) :
    t.currencyTotal currency = 0 := by
  have all : ∀ id, t.posted id = 0 := by
    intro id
    by_cases exists_ : id ∈ t.transactions.map (·.transactionId)
    · obtain ⟨transaction, member, rfl⟩ := List.mem_map.1 exists_
      exact cancels transaction member
    · rw [posted, consistent.entriesOf_eq_nil exists_]
      rfl
  refine sum_of_groups (·.transactionId) _ _ fun id => ?_
  rw [List.filter_filter]
  by_cases found : ∃ a ∈ t.entries, a.transactionId = id ∧ t.currencyOf a.accountId = some currency
  · obtain ⟨a, member, same, priced⟩ := found
    rw [← all id, posted, entriesOf]
    refine congrArg (fun l : List LedgerEntry => (l.map (·.amount.unscaled)).sum)
      (List.filter_congr fun b listed => ?_)
    by_cases grouped : b.transactionId = id
    · have equal := wise a member b listed (same.trans grouped.symm)
      simp [grouped, ← equal, priced]
    · simp [grouped]
  · rw [List.filter_eq_nil_iff.2 fun b listed => ?_]
    · rfl
    · push Not at found
      simp only [Bool.and_eq_true, decide_eq_true_eq, not_and]
      exact found b listed

theorem currencyOf_append {rows : Tables} {x : UUID} (known : x ∈ t.accounts.map (·.accountId)) :
    (t ++ rows).currencyOf x = t.currencyOf x := by
  obtain ⟨account, _, _, found⟩ := find_account known
  rw [currencyOf, append_accounts, List.find?_append, found, currencyOf, found]
  rfl

theorem Consistent.currencyOf (consistent : t.Consistent) {account : Account} (member : account ∈ t.accounts) :
    t.currencyOf account.accountId = some account.currency := by
  obtain ⟨other, listed, same, found⟩ := find_account (List.mem_map_of_mem member)
  rw [Tables.currencyOf, found, consistent.account_unique listed member same]
  rfl

end Tables

variable {env : Deployment} {db : Tables} {request : Request} {P : Posting} {p : ℕ} {w : World} {φ : Progress}

theorem Tables.CurrencyWise.post (wise : db.CurrencyWise) (consistent : db.Consistent)
    (posted : PostedBy env db request P)
    (fresh : P.transaction.transactionId ∉ db.ids) (same : db.currencyOf P.payer = db.currencyOf P.payee) :
    (db ++ P.rows).CurrencyWise := by
  have old : ∀ {a}, a ∈ db.entries → (db ++ P.rows).currencyOf a.accountId = db.currencyOf a.accountId :=
    fun member => Tables.currencyOf_append (consistent.accountOf _ member)
  have new : ∀ {a}, a ∈ P.rows.entries → a.transactionId = P.transaction.transactionId ∧
      (db ++ P.rows).currencyOf a.accountId = db.currencyOf P.payer := by
    intro a member
    rcases List.mem_pair.1 member with rfl | rfl
    · exact ⟨rfl, Tables.currencyOf_append posted.parties.1⟩
    · exact ⟨rfl, (Tables.currencyOf_append posted.parties.2).trans same.symm⟩
  have apart : ∀ {a b}, a ∈ db.entries → b ∈ P.rows.entries → a.transactionId ≠ b.transactionId := by
    intro a b left right shared
    have listed := consistent.transactionOf a left
    rw [shared, (new right).1] at listed
    exact Tables.not_mem_transactions fresh listed
  intro a left b right shared
  rcases List.mem_append.1 left with left | left <;> rcases List.mem_append.1 right with right | right
  · rw [old left, old right]
    exact wise a left b right shared
  · exact absurd shared (apart left right)
  · exact absurd shared.symm (apart right left)
  · rw [(new left).2, (new right).2]

def Progress.Agrees (φ : Progress) : Prop :=
  ∀ system, φ.cash = [system] → ∀ account ∈ φ.known, account.currency = system.currency

section Runs
variable {ok : State (machine env) → Action (machine env) → Prop} {s t : State (machine env)}
  {a : Action (machine env)} {trace : List (Executed language)}

/-- The system account that a call has looked up by the time that it comes to its commit has the currency of
the account that the call names. -/
def CashMatches (env : Deployment) (s : State (machine env)) (a : Action (machine env)) : Prop :=
  ∀ p proc looked system account, CommitsFor p proc.request s a → s.procs p = some proc →
    (Stmt.selectSystemCash, looked) ∈ proc.past → looked.db.accounts.filter (·.isSystemCash) = [system] →
    account ∈ s.world.db.accounts → account.accountId ∈ proc.request.accounts →
      account.currency = system.currency

/-- What a call knows from the lookup of the system account, and which accounts it has found by then. -/
structure Progress.Looked (request : Request) (φ : Progress) (past : List (Stmt × World)) : Prop where
  lookup : ∀ system, φ.cash = [system] → ∃ w, (Stmt.selectSystemCash, w) ∈ past ∧
    w.db.accounts.filter (·.isSystemCash) = [system]
  named : φ.cash ≠ [] → ∀ account ∈ φ.known, account.accountId ∈ request.accounts

theorem looked_of_traces (opening : w.Opening) (traces : (machine env).Traces ok ((machine env).initial w) trace s)
    {proc : Proc (machine env)} (found : s.procs p = some proc) :
    (progress env p trace).Looked proc.request proc.past := by
  refine Protocol.records_of_traces (P := procedure env) (R := fun request φ past => φ.Looked request past)
    (fun _ => ⟨nofun, nofun⟩) ?_ traces found
  intro trace s p proc choice stmt next result w' traces _ found rest executed looked
  have allowed := allowed_of_traces traces found rest
  have tracks := tracks_of_traces opening traces (Protocol.open_of_call found rest)
  have later : ∀ ψ : Progress, ψ.cash = (progress env p trace).cash →
      ψ.known = (progress env p trace).known → ψ.Looked proc.request ((stmt, s.world) :: proc.past) := by
    intro ψ cash known
    refine ⟨fun system single => ?_, fun lookup => ?_⟩
    · obtain ⟨w, member, found⟩ := looked.lookup system (cash ▸ single)
      exact ⟨w, List.mem_cons_of_mem _ member, found⟩
    · rw [known]
      exact looked.named (cash ▸ lookup)
  cases stmt with
  | selectAccount x | selectAccountsIn ids =>
    have unlooked : (progress env p trace).cash = [] := allowed.2
    exact ⟨fun system single => absurd (unlooked.symm.trans single) nofun, fun lookup => absurd unlooked lookup⟩
  | selectSystemCash =>
    obtain ⟨blank, unlooked, named⟩ := allowed
    cases executed
    refine ⟨fun system single => ⟨s.world, List.mem_cons_self, ?_⟩, fun _ => named⟩
    change (World.visible p s.world).accounts.filter (·.isSystemCash) ++ (progress env p trace).cash = _ at single
    rwa [unlooked, List.append_nil, tracks.visible blank] at single
  | insertAccount | insertTransaction =>
    change Except PyError Unit at result
    cases result <;> exact later _ rfl rfl
  | insertEntry transactionId x amount =>
    change Except PyError Unit at result
    cases result with
    | error error => exact later _ rfl rfl
    | ok _ =>
      change ((progress env p trace).after (.insertEntry transactionId x amount) (.ok ())).Looked _ _
      cases stored : Numeric.cast 20 2 amount <;> simp only [Progress.after, stored] <;> exact later _ rfl rfl
  | commit | rollback => exact ⟨nofun, nofun⟩
  | _ => exact later _ rfl rfl

theorem Progress.Commits.currencies (commits : φ.Commits request) (agrees : φ.Agrees) (tracks : φ.Tracks env p w)
    (consistent : w.db.Consistent) (posted : PostedBy env w.db request P) (written : φ.writes = P.rows) :
    w.db.currencyOf P.payer = w.db.currencyOf P.payee := by
  -- the entry of a deposit or a withdrawal on the system account was found by the lookup, or is on the named account
  have looked : ∀ account system : Account, account ∈ w.db.accounts → system ∈ w.db.accounts →
      request.accounts = [account.accountId] →
        (∃ entry ∈ P.rows.entries, entry.accountId = system.accountId) →
      w.db.currencyOf account.accountId = w.db.currencyOf system.accountId := by
    intro account system member member' only ⟨entry, listed, same⟩
    rcases commits.entered entry (written ▸ listed) with own | cash
    · rw [only, List.mem_singleton] at own
      rw [← own, same]
    · obtain ⟨found, single⟩ := commits.looked _ only
      obtain ⟨known, named, equal⟩ := List.mem_map.1 (commits.named account.accountId (by simp [only]))
      rw [single, List.map_singleton, List.mem_singleton] at cash
      have paired := agrees found single known named
      rw [← same, cash, ← equal, consistent.currencyOf (tracks.found known (List.mem_append_left _ named)),
        consistent.currencyOf (tracks.found found (by simp [single])), paired]
  cases posted with
  | deposit account system _ _ _ _ _ _ found _ cash =>
    exact (looked account system found cash rfl ⟨_, List.mem_cons_self, rfl⟩).symm
  | withdrawal account system _ _ _ _ _ _ _ found _ cash =>
    exact looked account system found cash rfl ⟨_, List.mem_cons_of_mem _ List.mem_cons_self, rfl⟩
  | transfer source destination _ _ _ _ _ _ _ _ found found' _ _ _ currencies =>
    rw [consistent.currencyOf found, consistent.currencyOf found', currencies]

theorem currencyWise_of_traces (opening : w.Opening) (start : w.db.CurrencyWise)
    (traces : (machine env).Traces (CashMatches env) ((machine env).initial w) trace s) :
    s.world.db.CurrencyWise := by
  induction traces with
  | refl => exact start
  | @tail trace s t a run matching stepped ih =>
    have consistent := consistent_of_runs opening run.runs
    rcases commit_cases opening run stepped with same | ⟨p, choice, proc, next, rfl, found, rest, commits, grown⟩
    · rwa [same]
    have running := Protocol.open_of_call found rest
    have allowed : (progress env p trace).Commits proc.request := allowed_of_traces run found rest
    have tracks := tracks_of_traces opening run running
    have agrees : (progress env p trace).Agrees := by
      intro system single account member
      have looked := looked_of_traces opening run found
      obtain ⟨w, executed, only⟩ := looked.lookup system single
      exact matching p proc w system account ⟨⟨choice, rfl⟩, requestOf_eq found, nextStmt_eq found rest⟩
        found executed only
        (tracks.found account (List.mem_append_left _ member)) (looked.named (by simp [single]) account member)
    rw [grown]
    generalize progress env p trace = φ at commits allowed tracks agrees
    obtain ⟨rows, written⟩ : ∃ rows, φ.writes = rows := ⟨_, rfl⟩
    rw [written] at commits ⊢
    cases commits with
    | opens created account same owner typed currency active fresh =>
      intro a left b right shared
      simp only [Tables.append_entries, List.append_nil] at left right
      rw [Tables.currencyOf_append (consistent.accountOf a left),
        Tables.currencyOf_append (consistent.accountOf b right)]
      exact ih a left b right shared
    | posts P posted fresh =>
      exact ih.post consistent posted fresh (allowed.currencies agrees tracks consistent posted written)

/-- Both entries of every transaction are on accounts of one currency, and every currency is conserved by
itself where the entries of each transaction cancel. -/
structure Tables.SeparatesCurrencies (t : Tables) : Prop where
  wise : t.CurrencyWise
  conserved : (∀ transaction ∈ t.transactions, t.posted transaction.transactionId = 0) →
    ∀ currency, t.currencyTotal currency = 0

theorem currencies_separate (opening : w.Opening) (start : w.db.CurrencyWise)
    (runs : (machine env).Runs (CashMatches env) ((machine env).initial w) s) : s.world.db.SeparatesCurrencies := by
  obtain ⟨trace, traces⟩ := runs.traces
  have consistent := consistent_of_runs opening runs
  have wise := currencyWise_of_traces opening start traces
  exact ⟨wise, wise.conserved consistent⟩

end Runs

/-- A call that is to commit names accounts of the currency that the system accounts have had since it started. -/
def cashMatches : State (machine sample) → Action (machine sample) → Bool
  | s, .step p _ =>
    match nextStmt p s with
    | some .commit => (s.procs p).all fun proc => proc.past.all fun executed =>
      (executed.2 : World).db.accounts.all fun system => !system.isSystemCash ||
        (s.world : World).db.accounts.all fun account => account.accountId ∉ Request.accounts proc.request ||
          account.currency = system.currency
    | _ => true
  | _, _ => true

theorem cashMatches_of_allowed (s : State (machine sample)) (a : Action (machine sample))
    (allowed : cashMatches s a) : CashMatches sample s a := by
  intro p proc looked system account committed found executed only member named
  obtain ⟨choice, rfl⟩ := committed.own
  simp only [cashMatches, committed.next, found, Option.all_some, List.all_eq_true, Bool.or_eq_true,
    decide_eq_true_eq] at allowed
  have cash : system ∈ looked.db.accounts ∧ system.isSystemCash := by
    rw [← List.mem_filter, only]
    exact List.mem_cons_self
  rcases allowed _ executed system cash.1 with other | same
  · simp [cash.2] at other
  · exact (same account member).resolve_left (not_not.2 named)

def openCarol (p : ℕ) (currency : String) (three : currency.length = 3) : List (Action (machine sample)) :=
  [.start p (.createAccount ⟨"Carol", "SAVINGS", currency, by decide, three⟩), .step p (.uuid 7),
    .step p .proceed, .step p .proceed, .step p .proceed]

def depositCarol (p : ℕ) : List (Action (machine sample)) :=
  [.start p (.createDeposit 7 oneRupee), .step p .proceed, .step p .proceed, .step p (.uuid 10), .step p .proceed,
    .step p .proceed, .step p .proceed, .step p .proceed, .step p (.uuid 11), .step p .proceed, .step p .proceed,
    .step p .proceed]

def currencies (s : State (machine sample)) : List (Option String) :=
  (s.world : World).db.entries.map fun entry => (s.world : World).db.currencyOf entry.accountId

theorem currencies_separate_sample : ∃ s : State (machine sample),
    currencies s = [some "INR", some "INR"] ∧ s.world.db.SeparatesCurrencies := by
  have executed : ((machine sample).run cashMatches ((machine sample).initial newBank)
      (openCarol 0 "inr" rfl ++ depositCarol 1)).map currencies = some [some "INR", some "INR"] := by
    decide +kernel
  obtain ⟨s, runs, observed⟩ := Machine.Runs.of_observed (CashMatches sample) cashMatches_of_allowed executed
  exact ⟨s, observed, currencies_separate newBank_opening (fun _ member => by cases member) runs⟩

/-- A deposit into an account in dollars takes rupees from the system account. -/
theorem currencies_crossed : ¬∀ s : State (machine sample),
    (machine sample).Runs (machine sample).anything ((machine sample).initial newBank) s →
      s.world.db.SeparatesCurrencies := by
  intro separate
  have executed : ((machine sample).run (fun _ _ => true) ((machine sample).initial newBank)
      (openCarol 0 "usd" rfl ++ depositCarol 1)).map (fun s => decide (s.world.db.CurrencyWise)) = some false := by
    decide +kernel
  obtain ⟨s, runs, observed⟩ := Machine.Runs.of_observed _ (fun _ _ _ => trivial) executed
  exact of_decide_eq_false observed (separate s runs).wise

end LedgerFlow.Ledger
