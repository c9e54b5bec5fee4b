import LedgerFlow.Concurrency.Acyclic
import LedgerFlow.Ledger.Tracking

/-! The wait-for graph between the open transactions of concurrent calls: it has no
cycle as long as no transfer names the system account. -/

namespace LedgerFlow.Ledger
open Accounts Outbox Concurrency

/-- The transaction of `q` holds a lock that the statement of session `p` conflicts with. -/
def Blocks (env : Deployment) (q p : ℕ) (w : World) : Stmt → Prop
  | .lockAccount x => q ≠ p ∧ ∃ mode, (q, mode) ∈ w.rowLocks x
  | .insertEntry _ x _ => q ≠ p ∧ env.foreignKeyLocks ∧ (q, LockMode.forUpdate) ∈ w.rowLocks x
  | .insertTransaction transaction =>
    q ≠ p ∧ ∃ row key, transaction.stored = some row ∧ row.idempotencyKey = some key ∧
      w.keyLocks key = some q
  | _ => False

/-- The edges of the wait-for graph: the next statement of `p` waits for the transaction of `q` to end. -/
def WaitsFor (env : Deployment) (s : State (machine env)) (p q : ℕ) : Prop :=
  ∃ stmt, nextStmt p s = some stmt ∧ Blocks env q p s.world stmt

def Deadlocked (env : Deployment) (s : State (machine env)) : Prop := ∃ p, Relation.TransGen (WaitsFor env s) p p

/-- No account is created, and no transfer that locks an account names a system account. -/
structure Separate (env : Deployment) (s : State (machine env)) (a : Action (machine env)) : Prop where
  opens : ∀ p created, a ≠ .start p (.createAccount created)
  parties : ∀ p choice request x, a = .step p choice → requestOf p s = some request → request.IsTransfer →
    nextStmt p s = some (.lockAccount x) → ∀ y ∈ request.accounts, ¬s.world.db.IsSystemCash y

def DeadlockFree (env : Deployment) (ok : State (machine env) → Action (machine env) → Prop) : Prop :=
  ∀ {w : World} {s : State (machine env)}, w.Opening → (machine env).Runs ok ((machine env).initial w) s →
    ¬Deadlocked env s

variable {env : Deployment} {p q : ℕ} {w : World} {s : State (machine env)} {stmt : Stmt}

/-- A statement that cannot be executed waits for a transaction (or `uuid4` has returned every value there is). -/
theorem blocks_of_waits (waits : Waits env p w stmt) : (∃ q, Blocks env q p w stmt) ∨ stmt = .uuid4 := by
  cases stmt with
  | lockAccount x =>
    obtain ⟨⟨q, mode⟩, held, other⟩ := waits
    exact .inl ⟨q, other, mode, held⟩
  | insertEntry transactionId x amount =>
    obtain ⟨locks, ⟨q, mode⟩, held, other, rfl⟩ := waits
    exact .inl ⟨q, other, locks, held⟩
  | insertTransaction transaction =>
    obtain ⟨row, key, q, stored, keyed, held, other⟩ := waits
    exact .inl ⟨q, other, row, key, stored, keyed, held⟩
  | uuid4 => exact .inr rfl
  | _ => exact absurd waits id

instance (t : Tables) (x : UUID) : Decidable (t.IsSystemCash x) :=
  inferInstanceAs (Decidable (∃ account ∈ t.accounts, account.accountId = x ∧ account.isSystemCash))

def Progress.Passed (db : Tables) (φ : Progress) : Prop := φ.writes.keys ≠ [] ∨ ∃ x ∈ φ.locked,
    db.IsSystemCash x

instance (db : Tables) (φ : Progress) : Decidable (φ.Passed db) := inferInstanceAs (Decidable (_ ∨ _))

/-- Where a call stands in the order in which calls wait for each other: before its first lock, a deposit before its
second entry, a transfer before its second lock, before the idempotency key or the entry on the system account, and
where it does not wait any more. -/
def stage (db : Tables) (φ : Progress) (stmt : Stmt) : ℕ ×ₗ UUID :=
  if φ.Passed db then toLex (4, 0)
  else if φ.locked = [] then
    if φ.writes.entries = [] then toLex (0, 0)
    else if ∀ entry ∈ φ.writes.entries, db.IsSystemCash entry.accountId then toLex (1, 0)
    else toLex (4, 0)
  else match stmt with
    | .lockAccount x => if x ∈ φ.locked then toLex (4, 0) else toLex (2, x)
    | _ => toLex (3, 0)

section Stages
variable {db : Tables} {φ : Progress}

theorem stage_unlocked (waits : ¬φ.Passed db) (unlocked : φ.locked = []) (blank : φ.writes.entries = []) :
    stage db φ stmt = toLex (0, 0) := by
  unfold stage
  rw [if_neg waits, if_pos unlocked, if_pos blank]

theorem stage_entered (waits : ¬φ.Passed db) (unlocked : φ.locked = []) (entered : φ.writes.entries ≠ [])
    (cash : ∀ entry ∈ φ.writes.entries, db.IsSystemCash entry.accountId) : stage db φ stmt = toLex (1, 0) := by
  unfold stage
  rw [if_neg waits, if_pos unlocked, if_neg entered, if_pos cash]

theorem stage_between {x : UUID} (waits : ¬φ.Passed db) (locked : φ.locked ≠ []) (new : x ∉ φ.locked) :
    stage db φ (.lockAccount x) = toLex (2, x) := by
  simp only [stage, if_neg waits, if_neg locked, if_neg new]

theorem stage_le (waits : ¬φ.Passed db) (blank : φ.locked = [] → φ.writes.entries = [])
    (other : ∀ x, stmt ≠ .lockAccount x) : stage db φ stmt ≤ toLex (3, 0) := by
  unfold stage
  rw [if_neg waits]
  split_ifs with unlocked none
  · simp [Prod.Lex.toLex_le_toLex]
  · exact absurd (blank unlocked) none
  · exact absurd (blank unlocked) none
  · split
    · exact absurd rfl (other _)
    · exact le_rfl

theorem stage_passed (passed : φ.Passed db) : stage db φ stmt = toLex (4, 0) := if_pos passed

theorem stage_lt_top : stage db φ stmt < toLex (5, 0) := by
  unfold stage
  split_ifs
  · simp [Prod.Lex.toLex_lt_toLex]
  · simp [Prod.Lex.toLex_lt_toLex]
  · simp [Prod.Lex.toLex_lt_toLex]
  · simp [Prod.Lex.toLex_lt_toLex]
  · split
    · split_ifs <;> simp [Prod.Lex.toLex_lt_toLex]
    · simp [Prod.Lex.toLex_lt_toLex]

end Stages

structure Standing (env : Deployment) (p : ℕ) (request : Request) (φ : Progress) (w : World)
    (stmt : Stmt) : Prop where
  tracks : φ.Tracks env p w
  allowed : φ.Allowed request stmt
  separate : request.IsTransfer → φ.locked ≠ [] → ∀ x ∈ request.accounts, ¬w.db.IsSystemCash x
  cash : φ.cash ≠ [] → ∀ x, w.db.IsSystemCash x ↔ x ∈ φ.cash.map (·.accountId)

namespace Standing
variable {request : Request} {φ : Progress}

theorem stage_pos (tracks : φ.Tracks env q w) {x : UUID} {mode : LockMode} (held : (q, mode) ∈ w.rowLocks x) :
    toLex (0, 0) < stage w.db φ stmt := by
  have holds : φ.locked ≠ [] ∨ φ.writes.entries ≠ [] := by
    cases mode with
    | forUpdate => exact .inl (List.ne_nil_of_mem ((tracks.forUpdate x).1 held))
    | keyShare =>
      obtain ⟨_, entry, member, _⟩ := (tracks.keyShare x).1 held
      exact .inr (List.ne_nil_of_mem member)
  unfold stage
  split_ifs with first second third
  · simp [Prod.Lex.toLex_lt_toLex]
  · exact absurd holds (by simp [second, third])
  · simp [Prod.Lex.toLex_lt_toLex]
  · simp [Prod.Lex.toLex_lt_toLex]
  · split
    · split_ifs <;> simp [Prod.Lex.toLex_lt_toLex]
    · simp [Prod.Lex.toLex_lt_toLex]

theorem stage_locked {x : UUID} (locked : x ∈ φ.locked) : toLex (1, 0) < stage w.db φ stmt := by
  have nonempty := List.ne_nil_of_mem locked
  unfold stage
  split_ifs
  · simp [Prod.Lex.toLex_lt_toLex]
  · split
    · split_ifs <;> simp [Prod.Lex.toLex_lt_toLex]
    · simp [Prod.Lex.toLex_lt_toLex]

/-- A call that holds a lock on a user's account waits only for rows behind it, or for
the key or the system account. -/
theorem stage_behind (standing : Standing env q request φ w stmt) {x : UUID} {mode : LockMode}
    (held : (q, mode) ∈ w.rowLocks x) (user : ¬w.db.IsSystemCash x) : toLex (2, x) < stage w.db φ stmt := by
  have holds : x ∈ φ.locked ∨ ∃ entry ∈ φ.writes.entries, entry.accountId = x := by
    cases mode with
    | forUpdate => exact .inl ((standing.tracks.forUpdate x).1 held)
    | keyShare => exact .inr ((standing.tracks.keyShare x).1 held).2
  unfold stage
  split_ifs with keyed unlocked blank cash
  · simp [Prod.Lex.toLex_lt_toLex]
  · simp [unlocked, blank] at holds
  · obtain ⟨entry, member, rfl⟩ := holds.resolve_left (by simp [unlocked])
    exact absurd (cash entry member) user
  · simp [Prod.Lex.toLex_lt_toLex]
  · split
    · obtain ⟨blank, _, order⟩ := standing.allowed
      have locked : x ∈ φ.locked := holds.resolve_right (by simp [blank])
      split_ifs with again
      · simp [Prod.Lex.toLex_lt_toLex]
      · rcases order x locked with same | ⟨less, _⟩
        · exact absurd (same ▸ locked) again
        · exact Prod.Lex.toLex_lt_toLex.2 (.inr ⟨rfl, less⟩)
    · simp [Prod.Lex.toLex_lt_toLex]

/-- Every edge of the wait-for graph leads to a later stage. -/
theorem stage_lt {request' : Request} {ψ : Progress} {stmt' : Stmt} (exclusive : w.Exclusive)
    (waiting : Standing env p request φ w stmt) (holding : Standing env q request' ψ w stmt')
    (blocks : Blocks env q p w stmt) : stage w.db φ stmt < stage w.db ψ stmt' := by
  cases stmt with
  | lockAccount x =>
    obtain ⟨other, mode, held⟩ := blocks
    obtain ⟨blank, _, order⟩ := waiting.allowed
    have unlocked : x ∉ φ.locked := fun locked =>
        other (exclusive x p q mode ((waiting.tracks.forUpdate x).2 locked) held)
    have named : ∀ y ∈ φ.locked, request.IsTransfer ∧ y ∈ request.accounts ∧ x ∈ request.accounts := by
      intro y locked
      rcases order y locked with same | ⟨_, named⟩
      · exact absurd (same ▸ locked) unlocked
      · exact named
    have waits : ¬φ.Passed w.db := by
      rintro (keyed | ⟨y, locked, cash⟩)
      · simp [blank, Tables.keys] at keyed
      · exact waiting.separate (named y locked).1 (List.ne_nil_of_mem locked) y (named y locked).2.1 cash
    by_cases none : φ.locked = []
    · rw [stage_unlocked waits none (by simp [blank])]
      exact stage_pos holding.tracks held
    · obtain ⟨y, locked⟩ := List.exists_mem_of_ne_nil _ none
      rw [stage_between waits none unlocked]
      exact holding.stage_behind held (waiting.separate (named y locked).1 none x (named y locked).2.2)
  | insertEntry transactionId x amount =>
    obtain ⟨other, _, held⟩ := blocks
    have locked : x ∈ ψ.locked := (holding.tracks.forUpdate x).1 held
    have unlocked : x ∉ φ.locked := fun mine =>
        other (exclusive x p q _ ((waiting.tracks.forUpdate x).2 mine) held)
    obtain ⟨unkeyed, ⟨system, lookup, rfl, blank⟩ | ⟨none, entered⟩⟩ :=
      waiting.allowed.resolve_left unlocked
    · -- the entry on the system account waits for a withdrawal from it, which waits for nobody
      have only : ∀ y, w.db.IsSystemCash y ↔ y = system.accountId := by
        simpa [lookup] using waiting.cash (by simp [lookup])
      have waits : ¬φ.Passed w.db := by
        rintro (keyed | ⟨y, mine, cash⟩)
        · exact keyed unkeyed
        · exact unlocked ((only y).1 cash ▸ mine)
      rw [stage_passed (φ := ψ) (.inr ⟨_, locked, (only _).2 rfl⟩)]
      exact (stage_le waits blank (fun _ same => by cases same)).trans_lt (by simp [Prod.Lex.toLex_lt_toLex])
    · -- the second entry of a deposit waits for a call that has locked the account
      have waits : ¬φ.Passed w.db := by
        rintro (keyed | ⟨y, mine, _⟩)
        · exact keyed unkeyed
        · simp [none] at mine
      by_cases blank : φ.writes.entries = []
      · rw [stage_unlocked waits none blank]
        exact stage_pos holding.tracks held
      · rw [stage_entered waits none blank fun entry member => ?_]
        · exact stage_locked locked
        · have listed := entered entry member
          exact (waiting.cash (fun unknown => by simp [unknown] at listed) _).2 listed
  | insertTransaction transaction =>
    obtain ⟨other, row, key, stored, keyed, held⟩ := blocks
    obtain ⟨blank, _, named⟩ := waiting.allowed
    have carries : transaction.idempotencyKey ≠ none := by
      intro keyless
      rw [Transaction.stored_keyless keyless] at stored
      cases stored
      cases keyless.symm.trans keyed
    obtain ⟨transfer, parties⟩ := named carries
    have waits : ¬φ.Passed w.db := by
      rintro (keyed | ⟨y, locked, cash⟩)
      · simp [blank, Tables.keys] at keyed
      · exact waiting.separate transfer (List.ne_nil_of_mem locked) y (parties y locked) cash
    rw [stage_passed (φ := ψ) (.inl (List.ne_nil_of_mem (holding.tracks.keys key held)))]
    exact (stage_le waits (fun _ => by simp [blank]) (fun _ same => by cases same)).trans_lt
      (by simp [Prod.Lex.toLex_lt_toLex])
  | _ => exact absurd blocks id

end Standing
section Runs
variable {ok : State (machine env) → Action (machine env) → Prop} {t : State (machine env)}
  {a : Action (machine env)} {trace : List (Executed language)}

theorem accounts_of_runs (opens : ∀ s p created, ¬ok s (.start p (.createAccount created))) (opening : w.Opening)
    (runs : (machine env).Runs ok ((machine env).initial w) s) : s.world.db.accounts = w.db.accounts := by
  have steps := refines (fun request => ∀ created, request ≠ .createAccount created)
    (fun s p request allowed created same => opens s p created (same ▸ allowed)) opening runs
  refine (Takes.induction (I := fun db => db.accounts = w.db.accounts)
    (fun db request rows other commits _ same => ?_) steps opening.consistent rfl).2
  rw [Tables.append_accounts, commits.no_account other, List.append_nil, same]

theorem cash_of_traces (opens : ∀ s p created, ¬ok s (.start p (.createAccount created))) (opening : w.Opening)
    (traces : (machine env).Traces ok ((machine env).initial w) trace s) (running : Protocol.Open s p)
    (looked : (progress env p trace).cash ≠ []) :
    (progress env p trace).cash = w.db.accounts.filter (·.isSystemCash) := by
  refine (Protocol.knows_of_traces (P := procedure env)
    (K := fun _ φ _ => φ.cash = [] ∨ φ.cash = w.db.accounts.filter (·.isSystemCash))
      (fun _ => .inl rfl) ?_ ?_ traces
    running).resolve_left looked
  · intro trace s p proc choice stmt next result w' traces _ found rest executed known
    have allowed := allowed_of_traces traces found rest
    have tracks := tracks_of_traces opening traces (Protocol.open_of_call found rest)
    cases stmt with
    | selectSystemCash =>
      obtain ⟨blank, unlooked, _⟩ := allowed
      cases executed
      refine .inr ?_
      change (List.filter _ (World.visible p s.world).accounts) ++ (progress env p trace).cash = _
      rw [unlooked, List.append_nil, tracks.visible blank, accounts_of_runs opens opening traces.runs]
    | insertAccount | insertTransaction =>
      change Except PyError Unit at result
      cases result <;> exact known
    | insertEntry transactionId x amount =>
      change Except PyError Unit at result
      cases result with
      | error error => exact known
      | ok _ => cases stored : Numeric.cast 20 2 amount <;> simpa [procedure, stored] using known
    | commit | rollback => exact .inl rfl
    | _ => exact known
  · exact fun _ _ _ _ _ _ known => known

/-- A transfer that has locked an account names no system account. -/
theorem users_of_traces (opening : w.Opening)
    (traces : (machine env).Traces (Separate env) ((machine env).initial w) trace s)
    {proc : Proc (machine env)} (found : s.procs p = some proc) : proc.request.IsTransfer →
      (progress env p trace).locked ≠ [] → ∀ x ∈ proc.request.accounts, ¬w.db.IsSystemCash x := by
  refine Protocol.records_of_traces (P := procedure env)
    (R := fun request φ _ => request.IsTransfer → φ.locked ≠ [] →
    ∀ x ∈ request.accounts, ¬w.db.IsSystemCash x) (fun _ _ locked => absurd rfl locked) ?_ traces found
  intro trace s p proc choice stmt next result w' traces separate found rest _ known
  have accounts := accounts_of_runs (fun _ p created separate => separate.opens p created rfl) opening traces.runs
  cases stmt with
  | lockAccount x =>
    intro transfer _ y party
    have users := separate.parties p choice _ x rfl (requestOf_eq found) transfer (nextStmt_eq found rest) y party
    rwa [Tables.IsSystemCash, accounts] at users
  | insertAccount | insertTransaction =>
    change Except PyError Unit at result
    cases result <;> exact known
  | insertEntry transactionId x amount =>
    change Except PyError Unit at result
    cases result with
    | error error => exact known
    | ok _ => cases stored : Numeric.cast 20 2 amount <;> simpa [procedure, stored] using known
  | commit | rollback => exact fun _ locked => absurd rfl locked
  | _ => exact known

theorem standing (opening : w.Opening)
    (traces : (machine env).Traces (Separate env) ((machine env).initial w) trace s)
    (next : nextStmt p s = some stmt) : ∃ request, Standing env p request (progress env p trace) s.world stmt := by
  have opens : ∀ s p created, ¬Separate env s (.start p (.createAccount created)) :=
    fun s p created separate => separate.opens p created rfl
  have accounts := accounts_of_runs opens opening traces.runs
  have cash : ∀ x, s.world.db.IsSystemCash x ↔ w.db.IsSystemCash x := fun x => by
    rw [Tables.IsSystemCash, accounts]; rfl
  obtain ⟨proc, rest, found, call⟩ := nextStmt_cases next
  have running := Protocol.open_of_call found call
  refine ⟨proc.request, tracks_of_traces opening traces running, allowed_of_traces traces found call, ?_,
    fun looked x => ?_⟩
  · exact fun transfer locked x party => mt (cash x).1 (users_of_traces opening traces found transfer locked x party)
  · rw [cash x, cash_of_traces opens opening traces running looked]
    simp [Tables.IsSystemCash, and_left_comm, and_comm]

/-- In every run without a transfer that names the system account and locks an account,
no calls wait for each other in a circle. -/
theorem deadlock_free (opening : w.Opening) (runs : (machine env).Runs (Separate env) ((machine env).initial w) s) :
    ¬Deadlocked env s := by
  rintro ⟨p, circle⟩
  obtain ⟨trace, traces⟩ := runs.traces
  let rank : ℕ → ℕ ×ₗ UUID := fun p =>
    ((nextStmt p s).map (stage s.world.db (progress env p trace))).getD (toLex (5, 0))
  have edge : ∀ p q, WaitsFor env s p q → rank p < rank q := by
    rintro p q ⟨stmt, next, blocks⟩
    obtain ⟨request, waiting⟩ := standing opening traces next
    cases next' : nextStmt q s with
    | none =>
      simp only [rank, next, next', Option.map_some, Option.map_none, Option.getD_some, Option.getD_none]
      exact stage_lt_top
    | some stmt' =>
      obtain ⟨request', holding⟩ := standing opening traces next'
      simpa [rank, next, next'] using waiting.stage_lt (exclusive_of_runs opening runs) holding blocks
  exact Acyclic.of_rank rank edge p circle

end Runs
def holdsUp (q p : ℕ) (s : State (machine sample)) : Bool :=
  match nextStmt p s with
  | some (.lockAccount x) => q ≠ p && decide ((q, .forUpdate) ∈ (s.world : World).rowLocks x)
  | some (.insertEntry _ x _) => q ≠ p && decide ((q, .forUpdate) ∈ (s.world : World).rowLocks x)
  | _ => false

theorem waitsFor_of_holdsUp {s : State (machine sample)} (held : holdsUp q p s) : WaitsFor sample s p q := by
  unfold holdsUp at held
  split at held
  · rename_i x next
    simp only [Bool.and_eq_true, decide_eq_true_eq] at held
    exact ⟨_, next, held.1, _, held.2⟩
  · rename_i x _ next
    simp only [Bool.and_eq_true, decide_eq_true_eq] at held
    exact ⟨_, next, held.1, rfl, held.2⟩
  · cases held

def separates : State (machine sample) → Action (machine sample) → Bool
  | _, .start _ (.createAccount _) => false
  | s, .step p _ =>
    match requestOf p s, nextStmt p s with
    | some request, some (.lockAccount _) =>
      request.accounts.all fun x => !decide ((s.world : World).db.IsSystemCash x)
    | _, _ => true
  | _, _ => true

theorem separate_of_separates (s : State (machine sample)) (a : Action (machine sample)) (allowed : separates s a) :
    Separate sample s a where
  opens p created same := by
    subst same
    cases allowed
  parties p choice request x same asked _ next y party := by
    subst same
    simp only [separates, asked, next] at allowed
    simpa using List.all_eq_true.1 allowed y party

def opposite : List (Action (machine sample)) :=
  [.start 0 (.createTransfer 2 3 oneRupee "there"), .step 0 .proceed, .step 0 .proceed, .step 0 .proceed,
    .start 1 (.createTransfer 3 2 oneRupee "back"), .step 1 .proceed, .step 1 .proceed]

theorem deadlock_free_sample : ∃ s : State (machine sample), WaitsFor sample s 1 0 ∧ ¬Deadlocked sample s := by
  have executed : ((machine sample).run separates ((machine sample).initial bank) opposite).map
      (holdsUp 0 1) = some true := by
    decide +kernel
  obtain ⟨s, runs, held⟩ := Machine.Runs.of_observed (Separate sample) separate_of_separates executed
  exact ⟨s, waitsFor_of_holdsUp held, deadlock_free bank_opening runs⟩

def PostsOnly (_ : State (machine sample)) (a : Action (machine sample)) : Prop :=
  ∀ p created, a ≠ .start p (.createAccount created)

/-- A transfer from Alice to the system account has locked the system account, and a withdrawal of Alice her account;
now the transfer needs Alice's account, and the withdrawal is to insert its entry on the system account. -/
def crossing : List (Action (machine sample)) :=
  [.start 0 (.createTransfer 2 1 oneRupee "key"), .step 0 .proceed, .step 0 .proceed, .step 0 .proceed,
    .start 1 (.createWithdrawal 2 oneRupee), .step 1 .proceed, .step 1 .proceed, .step 1 .proceed, .step 1 .proceed,
    .step 1 (.uuid 10), .step 1 .proceed, .step 1 .proceed, .step 1 .proceed]

theorem not_deadlock_free : ¬DeadlockFree sample PostsOnly := by
  intro free
  have executed : ((machine sample).run (fun _ _ => true) ((machine sample).initial bank) crossing).map
      (fun s => (holdsUp 1 0 s, holdsUp 0 1 s)) = some (true, true) := by
    decide +kernel
  obtain ⟨s, reached, held⟩ := Option.map_eq_some_iff.1 executed
  simp only [Prod.mk.injEq] at held
  have runs : (machine sample).Runs PostsOnly ((machine sample).initial bank) s := by
    refine .of_actions (fun a member _ p created same => ?_) reached
    subst same
    simp only [crossing, List.mem_cons, reduceCtorEq, List.not_mem_nil, false_or, or_false] at member
    rcases member with same | same <;> cases same
  exact free bank_opening runs
    ⟨0, .tail (.single (waitsFor_of_holdsUp held.1)) (waitsFor_of_holdsUp held.2)⟩

end LedgerFlow.Ledger
