import LedgerFlow.Ledger.Atomicity
import LedgerFlow.Ledger.Idempotency
import LedgerFlow.Ledger.Router
import LedgerFlow.Ledger.Tracking

/-! What a client is told and what was posted: the amounts of an answer, of its event and of its two entries. -/

namespace LedgerFlow.Ledger
open Accounts Outbox Concurrency World

namespace Tables

def eventsOf (db : Tables) (transactionId : UUID) : List OutboxEvent :=
  db.events.filter (·.aggregateId = transactionId)

@[simp] theorem eventsOf_append (a b : Tables) (transactionId : UUID) :
    (a ++ b).eventsOf transactionId = a.eventsOf transactionId ++ b.eventsOf transactionId := by
  simp [eventsOf]

/-- The tables hold the rows of a posting, and nothing else about its transaction. -/
structure Records (db : Tables) (P : Posting) : Prop where
  member : P.transaction ∈ db.transactions
  entries : db.entriesOf P.transaction.transactionId = P.rows.entries
  events : db.eventsOf P.transaction.transactionId = [P.event]

def PostedFor (env : Deployment) (db : Tables) (request : Request) (transaction : Transaction) : Prop :=
  ∃ P earlier, P.transaction = transaction ∧ PostedBy env earlier request P ∧ db.Records P

/-- Every transaction with an idempotency key was posted for some request. -/
def Booked (env : Deployment) (db : Tables) : Prop :=
  ∀ transaction ∈ db.transactions, transaction.idempotencyKey ≠ none → ∃ request,
    db.PostedFor env request transaction

end Tables

variable {env : Deployment} {db rows : Tables} {request : Request} {w : World} {s t : State (machine env)}

theorem Tables.Whole.eventsOf_eq_nil (whole : db.Whole) {transactionId : UUID}
    (absent : transactionId ∉ db.transactions.map (·.transactionId)) : db.eventsOf transactionId = [] := by
  apply List.filter_eq_nil_iff.2
  intro event member same
  apply absent
  have announced := whole.events.subset (List.mem_map_of_mem member)
  obtain ⟨transaction, listed, equal⟩ := List.mem_map.1 announced
  have aggregate : transaction.transactionId = event.aggregateId := congrArg Prod.fst equal
  rw [← of_decide_eq_true same, ← aggregate]
  exact List.mem_map_of_mem listed

theorem Commits.eventsOf (commits : Commits env db request rows) {transaction : Transaction}
    (member : transaction ∈ db.transactions) :
    (db ++ rows).eventsOf transaction.transactionId = db.eventsOf transaction.transactionId := by
  cases commits with
  | opens => simp [Tables.eventsOf]
  | posts P posted fresh =>
    have other : P.event.aggregateId ≠ transaction.transactionId := by
      rw [posted.announced.1]
      intro same
      exact Tables.not_mem_transactions fresh (same ▸ List.mem_map_of_mem member)
    rw [Tables.eventsOf_append]
    simp [Tables.eventsOf, Posting.rows, other]

theorem Tables.Records.append {P : Posting} (records : db.Records P) (commits : Commits env db request rows) :
    (db ++ rows).Records P where
  member := List.mem_append_left _ records.member
  entries := by rw [commits.entriesOf records.member, records.entries]
  events := by rw [commits.eventsOf records.member, records.events]

theorem Tables.PostedFor.append {asked : Request} {transaction : Transaction}
    (posted : db.PostedFor env asked transaction) (commits : Commits env db request rows) :
    (db ++ rows).PostedFor env asked transaction := by
  obtain ⟨P, earlier, same, posted, records⟩ := posted
  exact ⟨P, earlier, same, posted, records.append commits⟩

theorem Commits.postedFor (commits : Commits env db request rows) (consistent : db.Consistent) (whole : db.Whole)
    {transaction : Transaction} (new : transaction ∈ rows.transactions) :
    (db ++ rows).PostedFor env request transaction := by
  cases commits with
  | opens => cases new
  | posts P posted fresh =>
    have same := List.mem_singleton.1 new
    have absent := Tables.not_mem_transactions fresh
    refine ⟨P, db, same.symm, posted, List.mem_append_right _ List.mem_cons_self, ?_, ?_⟩
    · exact consistent.entriesOf_posting fresh
    · rw [Tables.eventsOf_append, whole.eventsOf_eq_nil absent]
      simp [Tables.eventsOf, Posting.rows, posted.announced.1]

theorem Commits.booked (commits : Commits env db request rows) (consistent : db.Consistent) (whole : db.Whole)
    (booked : db.Booked env) : (db ++ rows).Booked env := by
  intro transaction member keyed
  rcases List.mem_append.1 member with old | new
  · obtain ⟨asked, posted⟩ := booked transaction old keyed
    exact ⟨asked, posted.append commits⟩
  · exact ⟨request, commits.postedFor consistent whole new⟩

theorem booked_of_runs {ok : State (machine env) → Action (machine env) → Prop} (opening : w.Opening)
    (whole : w.db.Whole)
    (booked : w.db.Booked env) (runs : (machine env).Runs ok ((machine env).initial w) s) :
    s.world.db.Booked env := by
  have kept := kept_of_runs (I := fun db => db.Whole ∧ db.Booked env) opening ⟨whole, booked⟩ ?_ runs
  · exact kept.2
  · intro s a p request rows _ _ commits consistent before
    exact ⟨commits.whole consistent before.1, commits.booked consistent before.1 before.2⟩

/-- The progress of a call, and the transactions it has committed. -/
structure Receipts where
  progress : Progress := {}
  committed : List Transaction := []

@[simp] def Receipts.after (φ : Receipts) (stmt : Stmt) (result : stmt.Result) : Receipts where
  progress := φ.progress.after stmt result
  committed :=
    match stmt with
    | .commit => φ.committed ++ φ.progress.writes.transactions
    | _ => φ.committed

def Stmt.Quiet : Stmt → Prop
  | .insertTransaction _ => False
  | .rollbackToSavepoint => False
  | .commit => False
  | .rollback => False
  | _ => True

structure Receipts.Pending (φ : Receipts) (transactions : List Transaction) : Prop where
  inserted : φ.progress.writes.transactions = transactions
  committed : φ.committed = []

theorem Receipts.Pending.after {φ : Receipts} {transactions : List Transaction} (pending : φ.Pending transactions)
    {stmt : Stmt} (quiet : stmt.Quiet) (result : stmt.Result) : (φ.after stmt result).Pending transactions := by
  cases stmt with
  | insertTransaction | rollbackToSavepoint | commit | rollback => exact quiet.elim
  | insertAccount account =>
    cases result with
    | error => exact pending
    | ok => exact ⟨by simpa using pending.inserted, pending.committed⟩
  | insertEntry transactionId x amount =>
    cases result with
    | error => exact pending
    | ok =>
      refine ⟨?_, pending.committed⟩
      cases stored : Numeric.cast 20 2 amount with
      | none => simpa [stored] using pending.inserted
      | some stored' => simpa [stored] using pending.inserted
  | insertEvent event => exact ⟨by simpa using pending.inserted, pending.committed⟩
  | redisGet | redisSet | redisDelete => exact pending
  | _ => exact ⟨pending.inserted, pending.committed⟩

theorem Receipts.committed_after {φ : Receipts} {stmt : Stmt} (other : stmt ≠ .commit) (result : stmt.Result) :
    (φ.after stmt result).committed = φ.committed := by
  cases stmt with
  | commit => exact absurd rfl other
  | _ => rfl

def receipts (env : Deployment) : Protocol (machine env) Receipts where
  start := {}
  after := Receipts.after
  allowed _ _ _ := True

theorem receipts_progress (p : ℕ) (trace : List (Executed language)) :
    ((receipts env).phase p trace).progress = progress env p trace := by
  induction trace with
  | nil => rfl
  | cons e trace ih =>
    unfold progress at ih ⊢
    unfold Protocol.phase
    split_ifs
    · rw [← ih]
      rfl
    · exact ih

/-- The rest of a call has the receipts `Q` for what it returns. -/
abbrev Delivers {α : Type} (env : Deployment) (request : Request) (φ : Receipts) (prog : Code α)
    (Q : Receipts → α → Prop) : Prop :=
  (receipts env).Follows request Q (fun _ _ => True) φ prog

namespace Delivers
variable {α β : Type} {φ : Receipts} {transactions : List Transaction} {Q : Receipts → α → Prop}

theorem quiet {stmt : Stmt} {next : stmt.Result → Code α} (pending : φ.Pending transactions) (quiet : stmt.Quiet)
    (rest : ∀ result ψ, ψ.Pending transactions → Delivers env request ψ (next result) Q) :
    Delivers env request φ (.call stmt next) Q :=
  ⟨trivial, fun result _ => rest result _ (pending.after quiet result)⟩

theorem scalarOneOrNone {rows : List β} {next : Option β → Code α} (none : Delivers env request φ (next none) Q)
    (some : ∀ row, Delivers env request φ (next (some row)) Q) :
    Delivers env request φ (Ledger.scalarOneOrNone rows >>= next) Q := by
  rcases rows with _ | ⟨row, _ | ⟨other, rest⟩⟩
  · exact none
  · exact some row
  · trivial

theorem ite {c : Prop} [Decidable c] {x y : Code α} (yes : Delivers env request φ x Q)
    (no : Delivers env request φ y Q) : Delivers env request φ (if c then x else y) Q := by
  split_ifs
  · exact yes
  · exact no

theorem lockRows {rows : List Account} {next : List Account → Code α} (pending : φ.Pending transactions)
    (rest : ∀ ψ : Receipts, ψ.Pending transactions → Delivers env request ψ (next rows) Q) :
    Delivers env request φ ((lockAll rows >>= fun _ => .ret rows) >>= next) Q := by
  rw [Prog.bind_assoc]
  suffices all : ∀ others φ, φ.Pending transactions →
    Delivers env request φ (lockAll others >>= fun _ => next rows) Q from all rows φ pending
  intro others
  induction others with
  | nil => exact rest
  | cons account others ih =>
    intro φ pending
    apply quiet pending
    · trivial
    intro _ ψ kept
    exact ih ψ kept

theorem flushTransaction {transactionType : TransactionType} {reference : String} {next : Transaction → Code α}
    (pending : φ.Pending [])
    (rest : ∀ transaction ψ, ψ.Pending [transaction] → Delivers env request ψ (next transaction) Q) :
    Delivers env request φ (flushTransaction transactionType reference none none >>= next) Q := by
  apply quiet pending
  · trivial
  intro transactionId ψ pending
  apply quiet pending
  · trivial
  intro createdAt ψ pending
  refine ⟨trivial, fun result _ => ?_⟩
  cases result with
  | error error => trivial
  | ok _ =>
    apply rest
    exact ⟨by simp [receipts, Transaction.stored_keyless, pending.inserted], pending.committed⟩

theorem posting {transactionId x y aggregateId : UUID} {debit credit : Decimal} {eventType : String} {payload : Json}
    {transaction : Transaction} {next : Code α} (pending : φ.Pending [transaction])
    (rest : ∀ ψ : Receipts, ψ.committed = [transaction] → Delivers env request ψ next Q) :
    Delivers env request φ (do
      insertEntry transactionId x debit
      insertEntry transactionId y credit
      flushOutboxEvent aggregateId eventType payload
      commit
      next) Q := by
  apply quiet pending
  · trivial
  intro result φ pending
  cases result with
  | error error => trivial
  | ok _ =>
  apply quiet pending
  · trivial
  intro result φ pending
  cases result with
  | error error => trivial
  | ok _ =>
  apply quiet pending
  · trivial
  intro eventId φ pending
  apply quiet pending
  · trivial
  intro createdAt φ pending
  apply quiet pending
  · trivial
  intro _ φ pending
  refine ⟨trivial, fun _ _ => ?_⟩
  apply rest
  simp [receipts, pending.inserted, pending.committed]

theorem returns_refreshTransaction {id : UUID} {rows : List Transaction}
    (returned : (machine env).Returns (.refreshTransaction id) rows) : ∀ row ∈ rows, row.transactionId = id := by
  obtain ⟨p, choice, w, w', executed⟩ := returned
  cases executed
  intro row member
  simpa using (List.mem_filter.1 member).2

theorem afterwards {transaction : Transaction} {account : Account} {x : UUID}
    {Q : Receipts → Transaction × Account → Prop}
    (delivered : ∀ (ψ : Receipts) (row : Transaction), ψ.committed = φ.committed →
      row.transactionId = transaction.transactionId → Q ψ (row, account)) :
    Delivers env request φ (do
      let transaction ← refresh transaction
      bestEffort (invalidateBalance x)
      .ret (transaction, account)) Q := by
  refine ⟨trivial, fun (rows : List Transaction) returned => ⟨trivial, fun result _ => ?_⟩⟩
  have same : (rows.headD transaction).transactionId = transaction.transactionId := by
    cases rows with
    | nil => rfl
    | cons row others => exact returns_refreshTransaction returned row List.mem_cons_self
  cases result with
  | error error => exact delivered _ _ rfl same
  | ok _ => exact delivered _ _ rfl same

def Receipt (φ : Receipts) (value : Transaction × Account) : Prop :=
  ∃ committed, φ.committed = [committed] ∧ value.1.transactionId = committed.transactionId

theorem createDeposit (x : UUID) (amount : Decimal) : Delivers env request {} (createDeposit x amount) Receipt := by
  apply quiet (⟨rfl, rfl⟩ : Receipts.Pending {} [])
  · trivial
  intro rows φ pending
  apply scalarOneOrNone
  · trivial
  intro account
  apply ite
  · trivial
  apply quiet pending
  · trivial
  intro rows φ pending
  apply scalarOneOrNone
  · trivial
  intro system
  apply flushTransaction pending
  intro transaction φ pending
  cases amount.neg with
  | none => trivial
  | some debit =>
    apply posting pending
    intro ψ committed
    apply afterwards
    intro χ row kept same
    exact ⟨transaction, kept.trans committed, same⟩

theorem createWithdrawal (x : UUID) (amount : Decimal) : Delivers env request {}
    (createWithdrawal x amount) Receipt := by
  apply quiet (⟨rfl, rfl⟩ : Receipts.Pending {} [])
  · trivial
  intro rows φ pending
  apply lockRows pending
  intro φ pending
  apply scalarOneOrNone
  · trivial
  intro account
  apply ite
  · trivial
  apply quiet pending
  · trivial
  intro total φ pending
  simp only [decimalOf_eq]
  apply ite
  · trivial
  apply quiet pending
  · trivial
  intro rows φ pending
  apply scalarOneOrNone
  · trivial
  intro system
  apply flushTransaction pending
  intro transaction φ pending
  cases amount.neg with
  | none => trivial
  | some debit =>
    apply posting pending
    intro ψ committed
    apply afterwards
    intro χ row kept same
    exact ⟨transaction, kept.trans committed, same⟩

end Delivers

def Value.transaction : Value → Option Transaction
  | .posted transaction _ => some transaction
  | .transfer transaction => some transaction
  | _ => none

def Delivered : Request → Receipts → Value → Prop
  | .createDeposit _ _, φ, value => ∃ posted, value = .posted posted.1 posted.2 ∧ Delivers.Receipt φ posted
  | .createWithdrawal _ _, φ, value => ∃ posted, value = .posted posted.1 posted.2 ∧ Delivers.Receipt φ posted
  | _, _, _ => True

theorem delivers_body (request : Request) : Delivers env request {} (body env request) (Delivered request) := by
  cases request with
  | createDeposit x amount =>
    apply Protocol.Follows.bind (Delivers.createDeposit x amount.value)
    intro φ value receipt
    exact ⟨value, rfl, receipt⟩
  | createWithdrawal x amount =>
    apply Protocol.Follows.bind (Delivers.createWithdrawal x amount.value)
    intro φ value receipt
    exact ⟨value, rfl, receipt⟩
  | createAccount | createTransfer | getBalance | getBalanceAt =>
    exact .free (fun _ _ => trivial) (fun _ _ => trivial) (fun _ _ => trivial) _ _

def Request.holder : Request → Option UUID
  | .createDeposit accountId _ => some accountId
  | .createWithdrawal accountId _ => some accountId
  | _ => none

section Runs
variable {ok : State (machine env) → Action (machine env) → Prop} {trace : List (Executed language)} {p : ℕ}

theorem Tables.PostedFor.step {a : Action (machine env)} {asked : Request} {transaction : Transaction}
    (posted : s.world.db.PostedFor env asked transaction) (opening : w.Opening)
    (runs : (machine env).Runs ok ((machine env).initial w) s) (stepped : (machine env).step s a = some t) :
    t.world.db.PostedFor env asked transaction := by
  have covered := covers_all opening runs
  rcases takes_of_step covered stepped with same | ⟨request, rows, _, commits, grown⟩
  · rwa [same]
  · rw [grown]
    exact posted.append commits

/-- On the way to `s` a step from `u` to `t` has committed the rows for the call of process `p`. -/
structure Committed (ok : State (machine env) → Action (machine env) → Prop) (w : World) (p : ℕ)
    (request : Request) (rows : Tables) (u t s : State (machine env)) : Prop where
  before : (machine env).Runs ok ((machine env).initial w) u
  step : ∃ a, ok u a ∧ CommitsFor p request u a ∧ (machine env).step u a = some t
  after : (machine env).Runs ok t s
  commits : Commits env u.world.db request rows
  grown : t.world.db = u.world.db ++ rows

theorem Committed.tail {request : Request} {u v : State (machine env)} {a : Action (machine env)}
    (committed : Committed ok w p request rows u v s) (allowed : ok s a) (stepped : (machine env).step s a = some t) :
    Committed ok w p request rows u v t :=
  { committed with after := committed.after.tail ⟨a, allowed, stepped⟩ }

theorem committed_of_traces (opening : w.Opening) (traces : (machine env).Traces ok ((machine env).initial w) trace s)
    {proc : Proc (machine env)} (found : s.procs p = some proc) :
    ∀ transaction ∈ ((receipts env).phase p trace).committed, ∃ u t rows,
      Committed ok w p proc.request rows u t s ∧ transaction ∈ rows.transactions := by
  induction traces generalizing p proc with
  | refl => cases found
  | @tail trace s t a run allowed stepped ih =>
    have onestep := stepped
    have later : ∀ {q proc request}, s.procs q = some proc → proc.request = request →
        ∀ transaction ∈ ((receipts env).phase q trace).committed,
          ∃ u v rows, Committed ok w q request rows u v t ∧ transaction ∈ rows.transactions := by
      rintro q proc _ found rfl transaction member
      obtain ⟨u, v, rows, committed, new⟩ := ih found transaction member
      exact ⟨u, v, rows, committed.tail allowed onestep, new⟩
    intro transaction member
    rcases Machine.step_cases stepped with ⟨q, request, rfl, fresh, rfl⟩ |
      ⟨q, choice, before, stmt, next, result, w', rfl, found', rest, executed, rfl⟩ |
      ⟨q, before, rfl, found', running, rfl⟩ | ⟨q, before, rfl, found', finished, rfl⟩ |
        ⟨e, w', rfl, ticked, rfl⟩
    · rw [Protocol.phase_of_other (fun _ absurd => by cases absurd)] at member
      rcases Machine.found_update found with ⟨rfl, rfl⟩ | ⟨_, found⟩
      · rw [Protocol.phase_of_idle run fresh] at member
        cases member
      · exact later found rfl transaction member
    · rw [Protocol.phase_of_executed (Machine.executed_step found' rest executed)] at member
      rcases Machine.found_update found with ⟨rfl, rfl⟩ | ⟨other, found⟩
      · rw [if_pos rfl] at member
        by_cases commit : stmt = .commit
        · subst commit
          rcases List.mem_append.1 member with old | new
          · exact later found' rfl transaction old
          · have covered := covers_all opening run.runs
            have tracks := tracks_of_traces opening run (Protocol.open_of_call found' rest)
            rw [receipts_progress] at new
            have guar := ((sound env _).guar_of_step covered found' rest executed).1
            rcases guar.commits with same | ⟨rows, _, commits, grown, written⟩
            · cases executed
              have unwritten := congrArg Tables.transactions same
              simp [World.commit, World.finish, tracks.session] at unwritten
              rw [unwritten] at new
              cases new
            · refine ⟨s, _, rows, ⟨run.runs, ⟨_, allowed, ?_, onestep⟩, .refl, commits, grown⟩, ?_⟩
              · have asked : requestOf p s = some before.request := requestOf_eq found'
                exact ⟨⟨choice, rfl⟩, asked, nextStmt_eq found' rest⟩
              · rwa [written, tracks.session]
        · exact later found' rfl transaction (by rwa [← Receipts.committed_after commit result])
      · rw [if_neg (Ne.symm other)] at member
        exact later found rfl transaction member
    · rw [Protocol.phase_of_other (fun _ absurd => by cases absurd)] at member
      rcases Machine.found_update found with ⟨rfl, rfl⟩ | ⟨_, found⟩
      · exact later found' rfl transaction member
      · exact later found rfl transaction member
    · rw [Protocol.phase_of_other (fun _ absurd => by cases absurd)] at member
      exact later found rfl transaction member
    · rw [Protocol.phase_of_other (fun _ absurd => by cases absurd)] at member
      exact later found rfl transaction member

theorem Committed.postedFor {request : Request} {u : State (machine env)}
    (committed : Committed ok w p request rows u t s)
    (opening : w.Opening) (whole : w.db.Whole) {transaction : Transaction} (new : transaction ∈ rows.transactions) :
    s.world.db.PostedFor env request transaction := by
  have covered := covers_all opening committed.before
  have posted : t.world.db.PostedFor env request transaction := by
    rw [committed.grown]
    exact committed.commits.postedFor covered.inv.consistent (whole_of_runs opening whole committed.before) new
  obtain ⟨a, allowed, _, stepped⟩ := committed.step
  have reached : (machine env).Runs ok ((machine env).initial w) t := committed.before.tail ⟨a, allowed, stepped⟩
  have after := committed.after
  clear committed
  induction after with
  | refl => exact posted
  | tail later stepped ih =>
    obtain ⟨a, _, stepped⟩ := stepped
    exact ih.step opening (reached.trans later) stepped

theorem Committed.member {request : Request} {u : State (machine env)}
    (committed : Committed ok w p request rows u t s)
    (opening : w.Opening) {transaction : Transaction} (new : transaction ∈ rows.transactions) :
    transaction ∈ s.world.db.transactions := by
  obtain ⟨a, allowed, _, stepped⟩ := committed.step
  obtain ⟨later, grown⟩ := grows_of_runs opening (committed.before.tail ⟨a, allowed, stepped⟩) committed.after
  rw [grown, committed.grown]
  exact List.mem_append_left _ (List.mem_append_right _ new)

theorem member_of_returned (opening : w.Opening) (runs : (machine env).Runs ok ((machine env).initial w) s)
    {proc : Proc (machine env)} {transaction : Transaction} {account : Account} (found : s.procs p = some proc)
    (returned : proc.rest = .ret (.posted transaction account)) : transaction ∈ s.world.db.transactions := by
  obtain ⟨u, reached, later, outcome⟩ :=
    outcome_of_runs (fun _ => True) (fun _ _ _ _ => trivial) opening runs found returned
  obtain ⟨rows, grown⟩ := grows_of_runs opening reached later
  rw [grown]
  apply List.mem_append_left
  generalize proc.request = request at outcome
  cases outcome with
  | deposited _ _ _ _ member => exact member
  | withdrawn _ _ _ _ member => exact member

theorem committed_of_returned (opening : w.Opening) (runs : (machine env).Runs ok ((machine env).initial w) s)
    {proc : Proc (machine env)} {value : Value} {x : UUID} (found : s.procs p = some proc)
    (returned : proc.rest = .ret value)
    (named : proc.request.holder = some x) : ∃ transaction u t rows, value.transaction = some transaction ∧
      Committed ok w p proc.request rows u t s ∧ transaction ∈ rows.transactions := by
  obtain ⟨trace, traces⟩ := Machine.Runs.traces runs
  have follows := Protocol.follows_of_traces (Φ := fun _ => True) (Q := Delivered) (fun _ _ _ _ => trivial)
    (fun request _ => delivers_body request) (fun _ => trivial) traces found
  have commits := committed_of_traces opening traces found
  rw [returned] at follows
  obtain ⟨posted, same, transaction, committed, equal⟩ :
      ∃ posted, value = .posted posted.1 posted.2 ∧ Delivers.Receipt ((receipts env).phase p trace) posted := by
    generalize proc.request = request at follows named
    cases request with
    | createDeposit | createWithdrawal => exact follows
    | createAccount | createTransfer | getBalance | getBalanceAt => cases named
  subst same
  obtain ⟨u, t, rows, step, new⟩ := commits transaction (by rw [committed]; exact List.mem_cons_self)
  have member := member_of_returned opening runs found returned
  rw [(consistent_of_runs opening runs).transaction_unique member (step.member opening new) equal]
  exact ⟨transaction, u, t, rows, rfl, step, new⟩

/-- A deposit, a withdrawal or a transfer that has returned has returned a transaction posted for its amount. (The
column may have cut blanks off the key that a transfer was posted with.) -/
theorem postedFor_of_runs (injective : Function.Injective env.sha256) (opening : w.Opening) (whole : w.db.Whole)
    (booked : w.db.Booked env) (runs : (machine env).Runs ok ((machine env).initial w) s) {proc : Proc (machine env)}
    {value : Value} {amount : Amount} (found : s.procs p = some proc) (returned : proc.rest = .ret value)
    (posts : proc.request.amount = some amount) :
    ∃ transaction asked, value.transaction = some transaction ∧ asked.amount = some amount ∧
      s.world.db.PostedFor env asked transaction := by
  have single : ∀ x, proc.request.holder = some x → ∃ transaction asked,
      value.transaction = some transaction ∧
      asked.amount = some amount ∧ s.world.db.PostedFor env asked transaction := by
    intro x named
    obtain ⟨transaction, u, t, rows, same, committed, new⟩ :=
      committed_of_returned opening runs found returned named
    exact ⟨transaction, proc.request, same, posts, committed.postedFor opening whole new⟩
  obtain ⟨request, started, past, rest⟩ := proc
  subst returned
  cases request with
  | createDeposit x | createWithdrawal x => exact single x rfl
  | createTransfer a b amount' key =>
    obtain ⟨transaction, kept, same, member, keyed, _, hashed⟩ :=
      returned_of_runs opening runs p _ a b amount' key value found rfl rfl
    obtain ⟨asked, P, earlier, equal, postedBy, records⟩ :=
      booked_of_runs opening whole booked runs transaction member (by simp [keyed])
    subst same
    subst equal
    have posting := postedBy
    cases postedBy with
    | deposit _ _ _ _ _ _ _ _ _ _ _ _ _ keyless => cases keyless.symm.trans keyed
    | withdrawal _ _ _ _ _ _ _ _ _ _ _ _ _ _ keyless => cases keyless.symm.trans keyed
    | transfer source destination amount'' key' _ _ _ _ _ _ _ _ _ _ _ _ _ _ _ hashed' =>
      have hashes := Option.some.inj (hashed.symm.trans hashed')
      obtain ⟨rfl, rfl, written⟩ := generateTransferHash_injective injective hashes
      obtain rfl := Amount.ext written
      exact ⟨_, .createTransfer source.accountId destination.accountId amount' key', rfl, posts, _, earlier,
        rfl, posting, records⟩
  | createAccount | getBalance | getBalanceAt => cases posts

end Runs

def Response.posting : Response → Option (UUID × Decimal)
  | .deposit transactionId _ amount _ => some (transactionId, amount)
  | .withdrawal transactionId _ amount _ => some (transactionId, amount)
  | .transfer transactionId _ _ amount _ => some (transactionId, amount)
  | _ => none

/-- A transaction has two entries of this size, and one event with this amount. -/
structure Tables.Carries (db : Tables) (transactionId : UUID) (amount : ℚ) : Prop where
  entries : ∃ first second, db.entriesOf transactionId = [first, second] ∧ |first.amount.toRat| = amount ∧
    |second.amount.toRat| = amount
  event : ∃ event number, db.eventsOf transactionId = [event] ∧
    (event.payload.item "amount" >>= Json.decimal) = .ok (.finite number) ∧ number.toRat = amount

def ReportsPosted (db : Tables) (response : Response) : Prop :=
  ∃ transactionId amount, response.posting = some (transactionId, amount) ∧ db.Carries transactionId amount.toRat

/-- The amount has no more than two decimals, apart from trailing zeros. -/
def Amount.InCents (amount : Amount) : Prop := ∃ n : ℤ, amount.value.toRat * 100 = n

theorem PostedBy.eventAmount {P : Posting} {amount : Amount} (posted : PostedBy env db request P)
    (posts : request.amount = some amount) :
    (P.event.payload.item "amount" >>= Json.decimal) = .ok (.finite amount.value) := by
  cases posted with
  | deposit | withdrawal =>
    cases posts
    simp only [createOutboxEvent, accountPayload]
    rw [Json.item_tail (by decide), Json.item_tail (by decide), Json.item_head]
    simp only [bind, Except.bind, Json.decimal_str]
  | transfer =>
    cases posts
    simp only [createOutboxEvent, transferPayload]
    rw [Json.item_tail (by decide), Json.item_tail (by decide), Json.item_tail (by decide), Json.item_head]
    simp only [bind, Except.bind, Json.decimal_str]

theorem Tables.PostedFor.carries_iff {transaction : Transaction} {amount : Amount}
    (posted : db.PostedFor env request transaction) (posts : request.amount = some amount) :
    db.Carries transaction.transactionId amount.value.toRat ↔ amount.InCents := by
  obtain ⟨P, earlier, rfl, postedBy, records⟩ := posted
  obtain ⟨amount', posts', stored⟩ := postedBy.amount
  obtain rfl := Option.some.inj (posts.symm.trans posts')
  obtain ⟨⟨negated, negation, debited⟩, credited, _⟩ := stored
  have exact_iff := Numeric.exact_iff amount.sign amount.nonzero (by decide) (by decide) negation debited credited
  have cents : (10 : ℚ) ^ 2 = 100 := by norm_num
  rw [cents] at exact_iff
  rw [Amount.InCents, ← exact_iff]
  constructor
  · intro carries
    obtain ⟨first, second, entries, debit, credit⟩ := carries.entries
    rw [records.entries] at entries
    cases entries
    exact ⟨debit, credit⟩
  · intro sizes
    exact ⟨⟨_, _, records.entries, sizes.1, sizes.2⟩,
      ⟨P.event, amount.value, records.events, postedBy.eventAmount posts, rfl⟩⟩

theorem posting_of_respond {value : Value} {response : Response} {transaction : Transaction} {amount : Amount}
    (responds : respond request value = some response) (posts : request.amount = some amount)
    (returned : value.transaction = some transaction) :
    response.posting = some (transaction.transactionId, amount.value) := by
  cases request <;> cases posts <;> cases value <;> cases responds <;> cases returned <;> rfl

theorem reply_cases {p : ℕ} {response : Response} (replied : reply p s = some (.ok response)) :
    ∃ proc value, s.procs p = some proc ∧ proc.rest = .ret value ∧
    respond proc.request value = some response := by
  unfold reply at replied
  cases found : s.procs p with
  | none =>
    have absent : requestOf p s = none := by
      rw [requestOf, found]
      rfl
    simp [absent] at replied
  | some proc =>
    rw [requestOf_eq found] at replied
    cases answered : answer p s with
    | none => simp [answered] at replied
    | some result =>
      cases result with
      | error error => simp [answered] at replied
      | ok value =>
        simp only [answered, Option.map_eq_some_iff, Except.ok.injEq, exists_eq_right] at replied
        exact ⟨proc, value, rfl, answer_eq_ok found answered, replied⟩

/-- Every answer to a posting reports what was posted, if and only if the amount was in whole cents. -/
theorem reported_as_posted (injective : Function.Injective env.sha256) (opening : w.Opening) (whole : w.db.Whole)
    (booked : w.db.Booked env)
    (runs : (machine env).Runs (machine env).anything ((machine env).initial w) s) {p : ℕ}
    {amount : Amount} {response : Response} (asked : requestOf p s = some request)
    (posts : request.amount = some amount)
    (replied : reply p s = some (.ok response)) : ReportsPosted s.world.db response ↔ amount.InCents := by
  obtain ⟨proc, value, found, returned, responds⟩ := reply_cases replied
  have same : proc.request = request := Option.some.inj ((requestOf_eq found).symm.trans asked)
  rw [← same] at posts
  obtain ⟨transaction, asked, delivered, amounts, posted⟩ :=
    postedFor_of_runs injective opening whole booked runs found returned posts
  have reported := posting_of_respond responds posts delivered
  rw [← posted.carries_iff amounts]
  constructor
  · intro reports
    obtain ⟨transactionId, number, same, carries⟩ := reports
    cases reported.symm.trans same
    exact carries
  · intro carries
    exact ⟨_, _, reported, carries⟩

theorem bank_booked : bank.db.Booked sample := by
  intro transaction member keyed
  have same := List.mem_singleton.1 member
  subst same
  exact absurd rfl keyed

def reported (s : State (machine sample)) : Option (Except HttpError Response) × List ℤ :=
  (reply 0 s, ((s.world : World).db.entriesOf 10).map (·.amount.unscaled))

theorem reported_as_posted_sample : ∃ s : State (machine sample),
    reply 0 s = some (.ok (.deposit 10 2 oneRupee.value "POSTED")) ∧
      ReportsPosted s.world.db (.deposit 10 2 oneRupee.value "POSTED") := by
  have executed : ((machine sample).run (fun _ _ => true) ((machine sample).initial bank) (deposit 0 oneRupee)).map
      (fun s => (requestOf 0 s, reported s)) = some (some (.createDeposit 2 oneRupee),
        some (.ok (.deposit 10 2 oneRupee.value "POSTED")), [-100, 100]) := by
    decide +kernel
  obtain ⟨s, runs, observed⟩ := Machine.Runs.of_observed _ (fun _ _ _ => trivial) executed
  simp only [Prod.mk.injEq, reported] at observed
  refine ⟨s, observed.2.1, ?_⟩
  apply (reported_as_posted sampleDigest_injective bank_opening bank_whole bank_booked runs observed.1
    rfl observed.2.1).2
  exact ⟨100, by norm_num [oneRupee, Decimal.toRat, Decimal.magnitude]⟩

def eighth : Amount := ⟨⟨false, 125, -3⟩, rfl, by decide⟩

/-- A deposit of 0.125 is reported as such and posted as 0.13. -/
theorem not_reported_as_posted : ¬∀ (s : State (machine sample)) (p : ℕ) (request : Request) (amount : Amount)
    (response : Response), (machine sample).Runs (machine sample).anything ((machine sample).initial bank) s →
      requestOf p s = some request → request.amount = some amount → reply p s = some (.ok response) →
        ReportsPosted s.world.db response := by
  intro reports
  have executed : ((machine sample).run (fun _ _ => true) ((machine sample).initial bank) (deposit 0 eighth)).map
      (fun s => (requestOf 0 s, reported s)) = some (some (.createDeposit 2 eighth),
        some (.ok (.deposit 10 2 eighth.value "POSTED")), [-13, 13]) := by
    decide +kernel
  obtain ⟨s, runs, observed⟩ := Machine.Runs.of_observed _ (fun _ _ _ => trivial) executed
  simp only [Prod.mk.injEq, reported] at observed
  obtain ⟨transactionId, amount, same, carries⟩ := reports s 0 _ eighth _ runs observed.1 rfl observed.2.1
  cases same
  obtain ⟨first, second, entries, size, _⟩ := carries.entries
  have posted := observed.2.2
  rw [entries] at posted
  simp only [List.map_cons, List.map_nil, List.cons.injEq] at posted
  rw [Numeric.toRat, posted.1] at size
  norm_num [eighth, Decimal.toRat, Decimal.magnitude] at size

end LedgerFlow.Ledger
