import LedgerFlow.Concurrency.Trace
import LedgerFlow.Ledger.Service

/-! The protocol of the ledger calls: in which order a call finds accounts, locks them, sums their entries, stamps its
transaction and inserts its rows. -/

namespace LedgerFlow.Ledger
open Accounts Outbox Concurrency

def Request.accounts : Request → List UUID
  | .createDeposit accountId _ => [accountId]
  | .createWithdrawal accountId _ => [accountId]
  | .createTransfer fromAccountId toAccountId _ _ => [fromAccountId, toAccountId]
  | _ => []

def Request.IsTransfer : Request → Prop
  | .createTransfer _ _ _ _ => True
  | _ => False

def Request.payment : Request → Option (UUID × Amount)
  | .createWithdrawal accountId amount => some (accountId, amount)
  | .createTransfer fromAccountId _ amount _ => some (fromAccountId, amount)
  | _ => none

def Request.reference : Request → Option String
  | .createDeposit _ _ => some "Deposit"
  | .createWithdrawal _ _ => some "Withdrawal"
  | .createTransfer _ _ _ _ => some "Transfer"
  | _ => none

/-- What a call has found, locked, summed, read from the clock since its last sum, drawn
from `uuid4`, and inserted. -/
structure Progress where
  known : List Account := []
  cash : List Account := []
  locked : List UUID := []
  sums : List (UUID × Decimal) := []
  stamps : List Timestamp := []
  ids : List UUID := []
  writes : Tables := {}
  saved : Option Tables := none

@[simp] def Progress.know (φ : Progress) (rows : List Account) : Progress := { φ with known := rows ++ φ.known }

@[simp] def Progress.knowCash (φ : Progress) (rows : List Account) : Progress := { φ with cash := rows ++ φ.cash }

@[simp] def Progress.insert (φ : Progress) (rows : Tables) : Progress := { φ with writes := φ.writes ++ rows }

@[simp] def Progress.after (φ : Progress) : (s : Stmt) → s.Result → Progress
  | .selectAccount _, rows => φ.know rows
  | .selectAccountsIn _, rows => φ.know rows
  | .selectSystemCash, rows => φ.knowCash rows
  | .lockAccount x, _ => { φ with locked := x :: φ.locked }
  | .sumEntries x, total => { φ with sums := (x, total) :: φ.sums, stamps := [] }
  | .uuid4, id => { φ with ids := id :: φ.ids }
  | .now, t => { φ with stamps := t :: φ.stamps }
  | .insertAccount account, .ok () => φ.insert { accounts := account.stored.toList }
  | .insertTransaction transaction, .ok () => φ.insert { transactions := transaction.stored.toList }
  | .insertEntry transactionId x amount, .ok () =>
    match Numeric.cast 20 2 amount with
    | none => φ
    | some stored => φ.insert { entries := [⟨transactionId, x, stored⟩] }
  | .insertEvent event, _ => φ.insert { events := [event] }
  | .savepoint, _ => { φ with saved := some φ.writes }
  | .releaseSavepoint, _ => { φ with saved := none }
  | .rollbackToSavepoint, _ => { φ with writes := φ.saved.getD {}, saved := none }
  | .commit, _ => {}
  | .rollback, _ => {}
  | _, _ => φ

/-- The account of a new entry is locked; or it is the system account, unless a deposit has inserted an entry
before; or it is the account of a deposit whose other entries are on the system account. -/
def Progress.Enters (φ : Progress) (x : UUID) : Prop :=
  x ∈ φ.locked ∨
  φ.writes.keys = [] ∧
    ((∃ system, φ.cash = [system] ∧ x = system.accountId ∧ (φ.locked = [] → φ.writes.entries = [])) ∨
    φ.locked = [] ∧ ∀ entry ∈ φ.writes.entries, entry.accountId ∈ φ.cash.map (·.accountId))

/-- When the rows of a call are committed: a payer it names is locked and has, by a sum under the lock, what
it pays; the accounts it names were found; the entries are on these and on the one system account that was
found; and the transaction is described by the call and has drawn its id before its event. -/
structure Progress.Commits (φ : Progress) (request : Request) : Prop where
  covered : ∀ x amount, request.payment = some (x, amount) →
    x ∈ φ.locked ∧ ∃ total, (x, total) ∈ φ.sums ∧ amount.value.toRat ≤ total.toRat
  named : ∀ x ∈ request.accounts, x ∈ φ.known.map (·.accountId)
  entered : ∀ entry ∈ φ.writes.entries, entry.accountId ∈ request.accounts ∨
      entry.accountId ∈ φ.cash.map (·.accountId)
  looked : ∀ x, request.accounts = [x] → ∃ system, φ.cash = [system]
  described : ∀ transaction ∈ φ.writes.transactions, transaction.status = .posted ∧
    transaction.reference = request.reference ∧
      (transaction.idempotencyKey = none → transaction.requestHash = none)
  drawn : ∀ transaction ∈ φ.writes.transactions, ∀ event ∈ φ.writes.events,
    φ.ids = [event.eventId, transaction.transactionId]

def Progress.Allowed (request : Request) (φ : Progress) : Stmt → Prop
  | .selectAccount _ => φ.writes = {} ∧ φ.cash = []
  | .selectAccountsIn _ => φ.writes = {} ∧ φ.cash = []
  | .selectSystemCash =>
    φ.writes = {} ∧ φ.cash = [] ∧ ∀ account ∈ φ.known, account.accountId ∈ request.accounts
  | .lockAccount x => φ.writes = {} ∧ φ.sums = [] ∧ ∀ y ∈ φ.locked, y = x ∨
    y < x ∧ request.IsTransfer ∧ y ∈ request.accounts ∧ x ∈ request.accounts
  | .sumEntries _ => φ.writes = {}
  | .insertTransaction transaction => φ.writes = {} ∧ transaction.createdAt ∈ φ.stamps ∧
    (transaction.idempotencyKey ≠ none → request.IsTransfer ∧ ∀ x ∈ φ.locked, x ∈ request.accounts)
  | .insertEntry _ x _ => φ.Enters x
  | .savepoint => φ.writes = {}
  | .commit => φ.Commits request
  | _ => True

def procedure (env : Deployment) : Protocol (machine env) Progress where
  start := {}
  after := Progress.after
  allowed := Progress.Allowed

variable {env : Deployment} {request : Request} {φ : Progress}

/-- The rest of a call keeps to the procedure, whatever it raises. -/
abbrev Proceeds {α : Type} (env : Deployment) (request : Request) (φ : Progress) (prog : Code α)
    (Q : Progress → α → Prop := fun _ _ => True) : Prop :=
  (procedure env).Follows request Q (fun _ _ => True) φ prog

theorem returns_selectAccount {x : UUID} {rows : List Account}
    (returned : (machine env).Returns (.selectAccount x) rows) : ∀ account ∈ rows, account.accountId = x := by
  obtain ⟨p, choice, w, w', executed⟩ := returned
  cases executed
  intro account member
  simpa using (List.mem_filter.1 member).2

theorem returns_selectAccountsIn {ids : List UUID} {rows : List Account}
    (returned : (machine env).Returns (.selectAccountsIn ids) rows) :
    (∀ account ∈ rows, account.accountId ∈ ids) ∧ (rows.map (·.accountId)).Pairwise (· ≤ ·) := by
  obtain ⟨p, choice, w, w', executed⟩ := returned
  cases executed
  refine ⟨fun account member => ?_, ?_⟩
  · simpa using (List.mem_filter.1 ((List.mem_insertionSort _).1 member)).2
  · exact List.pairwise_map.2 (List.pairwise_insertionSort _ _)

theorem returns_insertTransaction_ok {transaction : Transaction}
    (returned : (machine env).Returns (.insertTransaction transaction) (.ok ())) : ∃ row,
    transaction.stored = some row := by
  obtain ⟨p, choice, w, w', executed⟩ := returned
  change exec env p (.insertTransaction transaction) choice w = _ at executed
  rcases exec_insertTransaction executed with ⟨_, other, _⟩ | ⟨row, stored, _⟩
  · cases other
  · exact ⟨row, stored⟩

namespace Proceeds
variable {α β : Type} {Q : Progress → α → Prop}

theorem call {stmt : Stmt} {next : stmt.Result → Code α} (allowed : φ.Allowed request stmt)
    (rest : ∀ result, (machine env).Returns stmt result → Proceeds env request (φ.after stmt result)
      (next result) Q) :
    Proceeds env request φ (.call stmt next) Q :=
  ⟨allowed, rest⟩

theorem bind {prog : Code α} {f : α → Code β} (first : Proceeds env request φ prog)
    (second : ∀ φ value, Proceeds env request φ (f value)) : Proceeds env request φ (prog >>= f) :=
  Protocol.Follows.bind first fun φ value _ => second φ value

theorem ite {c : Prop} [Decidable c] {x y : Code α} (yes : c → Proceeds env request φ x Q)
    (no : ¬c → Proceeds env request φ y Q) : Proceeds env request φ (if c then x else y) Q := by
  split_ifs with h
  · exact yes h
  · exact no h

theorem lockAll {rows : List Account} {next : Unit → Code α} (blank : φ.writes = {}) (unsummed : φ.sums = [])
    (order : ∀ y ∈ φ.locked, ∀ account ∈ rows, y ≤ account.accountId)
    (sorted : (rows.map (·.accountId)).Pairwise (· ≤ ·))
    (parties : ∀ y ∈ φ.locked ++ rows.map (·.accountId),
      ∀ z ∈ φ.locked ++ rows.map (·.accountId), y = z ∨
      request.IsTransfer ∧ y ∈ request.accounts ∧ z ∈ request.accounts)
    (rest : Proceeds env request { φ with locked := (rows.map (·.accountId)).reverse ++ φ.locked } (next ())) :
    Proceeds env request φ (lockAll rows >>= next) := by
  induction rows generalizing φ with
  | nil => exact rest
  | cons account others ih =>
    rw [List.map_cons, List.pairwise_cons] at sorted
    refine call ⟨blank, unsummed, fun y member => ?_⟩ fun _ _ =>
      ih blank unsummed (fun y member => ?_) sorted.2 ?_ ?_
    · rcases parties y (List.mem_append_left _ member) account.accountId (by simp) with same | both
      · exact .inl same
      · exact (order y member account List.mem_cons_self).eq_or_lt.imp id fun less => ⟨less, both⟩
    · rcases List.mem_cons.1 member with rfl | earlier
      · exact fun other listed => sorted.1 _ (List.mem_map_of_mem listed)
      · exact fun other listed => order y earlier other (List.mem_cons_of_mem _ listed)
    · intro y first z second
      refine parties y ?_ z ?_
      · simpa [or_comm, or_assoc, or_left_comm, Progress.after] using first
      · simpa [or_comm, or_assoc, or_left_comm, Progress.after] using second
    · simpa [Progress.after] using rest

theorem lockRows {rows : List Account} {next : List Account → Code α} (blank : φ.writes = {})
    (unsummed : φ.sums = []) (unlocked : φ.locked = []) (sorted : (rows.map (·.accountId)).Pairwise (· ≤ ·))
    (parties : ∀ y ∈ rows.map (·.accountId), ∀ z ∈ rows.map (·.accountId), y = z ∨
      request.IsTransfer ∧ y ∈ request.accounts ∧ z ∈ request.accounts)
    (rest : Proceeds env request { φ with locked := (rows.map (·.accountId)).reverse } (next rows)) :
    Proceeds env request φ ((Ledger.lockAll rows >>= fun _ => .ret rows) >>= next) := by
  rw [Prog.bind_assoc]
  refine lockAll blank unsummed ?_ sorted ?_ ?_
  · simp [unlocked]
  · simpa [unlocked] using parties
  · simpa [unlocked] using rest

theorem insertEntry {transactionId x : UUID} {amount : Decimal} {next : Unit → Code α} (enters : φ.Enters x)
    (rest : ∀ stored, Proceeds env request (φ.insert { entries := [⟨transactionId, x, stored⟩] })
      (next ()) Q) :
    Proceeds env request φ (insertEntry transactionId x amount >>= next) Q := by
  refine call enters fun result returned => ?_
  cases result with
  | error error => trivial
  | ok _ =>
    cases stored : Numeric.cast 20 2 amount with
    | none =>
      obtain ⟨p, choice, w, w', executed⟩ := returned
      simp only [machine, exec, stored] at executed
      cases executed
    | some stored' =>
      have continued := rest stored'
      simp only [Progress.after, stored]
      exact continued

theorem flushTransaction {transactionType : TransactionType} {reference : String} {key hash : Option String}
    {next : Transaction → Code α} (blank : φ.writes = {})
    (keyed : key ≠ none → request.IsTransfer ∧ ∀ x ∈ φ.locked, x ∈ request.accounts)
    (rest : ∀ transactionId createdAt stamps kept, (kept = none ↔ key = none) →
      let transaction : Transaction := {
        transactionId, transactionType, status := .posted, reference := some reference,
        idempotencyKey := key, requestHash := hash, createdAt }
      Proceeds env request
        { φ.insert { transactions := [{ transaction with idempotencyKey := kept }] } with
          stamps := stamps, ids := transactionId :: φ.ids }
        (next transaction) Q) :
    Proceeds env request φ (flushTransaction transactionType reference key hash >>= next) Q := by
  refine call trivial fun transactionId _ => call trivial fun createdAt _ => ?_
  refine call ⟨blank, List.mem_cons_self, keyed⟩ fun result returned => ?_
  cases result with
  | error error => trivial
  | ok _ =>
    obtain ⟨row, stored⟩ := returns_insertTransaction_ok returned
    obtain ⟨same, kept⟩ := Transaction.stored_cases stored
    have keyless : row.idempotencyKey = none ↔ key = none := by
      cases key with
      | none => simp [kept]
      | some key =>
        obtain ⟨carried, keeps, _⟩ := Option.map_eq_some_iff.1 ((Transaction.stored_keyed rfl).symm.trans stored)
        simp [kept, keeps]
    have continued := rest transactionId createdAt (createdAt :: φ.stamps) row.idempotencyKey keyless
    simp only [Progress.after, stored]
    rw [same]
    exact continued

theorem flushOutboxEvent {aggregateId : UUID} {eventType : String} {payload : Json} {next : Unit → Code α}
    (rest : ∀ event stamps, Proceeds env request
      { φ.insert { events := [event] } with stamps := stamps, ids := event.eventId :: φ.ids } (next ()) Q) :
    Proceeds env request φ (flushOutboxEvent aggregateId eventType payload >>= next) Q :=
  call trivial fun eventId _ => call trivial fun createdAt _ => call trivial fun _ _ =>
    rest (createOutboxEvent eventId aggregateId eventType payload createdAt) (createdAt :: φ.stamps)

theorem redisDelete {x : UUID} {next : Unit → Code α} (rest : Proceeds env request φ (next ())) :
    Proceeds env request φ (bestEffort (invalidateBalance x) >>= next) := by
  refine call trivial fun result _ => ?_
  cases result <;> exact rest

theorem createAccount (created : CreateAccountRequest) : Proceeds env (.createAccount created) {}
    (createAccount env created) := by
  unfold Ledger.createAccount
  cases AccountType.ofStr created.accountType with
  | none => trivial
  | some accountType =>
    refine call trivial fun accountId _ => call trivial fun result _ => ?_
    cases result with
    | error error => trivial
    | ok _ =>
      refine call ⟨nofun, nofun, fun entry member => ?_, nofun, fun transaction member => ?_,
        fun transaction member => ?_⟩ fun _ _ => call trivial fun _ _ => trivial
      all_goals simp at member

theorem createDeposit (x : UUID) (amount : Amount) :
    Proceeds env (.createDeposit x amount) {} (createDeposit x amount.value) := by
  refine call ⟨rfl, rfl⟩ fun rows returned => ?_
  rcases rows with _ | ⟨account, _ | ⟨_, _⟩⟩
  · trivial
  · obtain rfl : account.accountId = x := returns_selectAccount returned account List.mem_cons_self
    refine ite (fun _ => trivial) fun active => ?_
    refine call ⟨rfl, rfl, by simp [Request.accounts]⟩ fun rows _ => ?_
    rcases rows with _ | ⟨system, _ | ⟨_, _⟩⟩
    · trivial
    · refine flushTransaction rfl (fun keyed => absurd rfl keyed)
        fun transactionId createdAt stamps kept keyless => ?_
      obtain rfl := keyless.2 rfl
      cases amount.value.neg with
      | none => trivial
      | some debit =>
        refine insertEntry ?_ fun debited => insertEntry ?_ fun credited => flushOutboxEvent fun event stamps => ?_
        · exact .inr ⟨by simp [Tables.keys], .inl ⟨system, rfl, rfl, fun _ => rfl⟩⟩
        · refine .inr ⟨by simp [Tables.keys], .inr ⟨rfl, fun entry member => ?_⟩⟩
          obtain rfl := List.mem_singleton.1 member
          exact List.mem_cons_self
        · refine call ⟨fun x paid same =>
            ?_, by simp [Request.accounts], fun entry member => ?_, fun _ _ => ⟨system, rfl⟩,
            by simp [Request.reference], by simp⟩ fun _ _ => call trivial fun _ _ => redisDelete trivial
          · cases same
          · rcases List.mem_pair.1 member with rfl | rfl
            · exact .inr List.mem_cons_self
            · exact .inl List.mem_cons_self
    · trivial
  · trivial

theorem createWithdrawal (x : UUID) (amount : Amount) :
    Proceeds env (.createWithdrawal x amount) {} (createWithdrawal x amount.value) := by
  refine call ⟨rfl, rfl⟩ fun rows returned => ?_
  rcases rows with _ | ⟨account, _ | ⟨_, _⟩⟩
  · trivial
  · obtain rfl : account.accountId = x := returns_selectAccount returned account List.mem_cons_self
    refine call ⟨rfl, rfl, nofun⟩ fun _ _ => ite (fun _ => trivial) fun active => ?_
    refine call rfl fun total _ => ?_
    simp only [decimalOf_eq]
    refine ite (fun _ => trivial) fun enough => ?_
    refine call ⟨rfl, rfl, by simp [Request.accounts]⟩ fun rows _ => ?_
    rcases rows with _ | ⟨system, _ | ⟨_, _⟩⟩
    · trivial
    · refine flushTransaction rfl (fun keyed => absurd rfl keyed)
        fun transactionId createdAt stamps kept keyless => ?_
      obtain rfl := keyless.2 rfl
      cases amount.value.neg with
      | none => trivial
      | some debit =>
        refine insertEntry ?_ fun debited => insertEntry ?_ fun credited => flushOutboxEvent fun event stamps => ?_
        · exact .inl (by simp)
        · exact .inr ⟨by simp [Tables.keys], .inl ⟨system, rfl, rfl, by simp⟩⟩
        · refine call ⟨fun x paid same =>
            ?_, by simp [Request.accounts], fun entry member => ?_, fun _ _ => ⟨system, rfl⟩,
            by simp [Request.reference], by simp⟩ fun _ _ => call trivial fun _ _ => redisDelete trivial
          · cases same
            exact ⟨by simp, total, by simp, not_lt.1 enough⟩
          · rcases List.mem_pair.1 member with rfl | rfl
            · exact .inl List.mem_cons_self
            · exact .inr List.mem_cons_self
    · trivial
  · refine lockRows rfl rfl rfl ?_ ?_ trivial
    · refine List.pairwise_map.2 (List.pairwise_of_forall_mem_list fun a first b second => ?_)
      rw [returns_selectAccount returned a first, returns_selectAccount returned b second]
    · intro y first z second
      obtain ⟨a, listed, rfl⟩ := List.mem_map.1 first
      obtain ⟨b, listed', rfl⟩ := List.mem_map.1 second
      exact .inl ((returns_selectAccount returned a listed).trans (returns_selectAccount returned b listed').symm)

theorem replay {hash : String} {existing : Transaction} : Proceeds env request φ (replay hash existing) :=
  ite (fun _ => trivial) fun _ => trivial

theorem recoverTransfer {key hash : String} {error : PyError} :
    Proceeds env request φ (recoverTransfer key hash error) := by
  cases error with
  | integrityError =>
    refine call trivial fun _ _ => call trivial fun rows _ => ?_
    rcases rows with _ | ⟨existing, _ | ⟨_, _⟩⟩
    · trivial
    · exact replay
    · trivial
  | _ => trivial

theorem beginNested {body : Code α} {next : α → Code β} (blank : φ.writes = {})
    (inner : Protocol.Follows (procedure env) request
      (fun φ value => Proceeds env request { φ with saved := none } (next value))
      (fun _ _ => True) { φ with saved := some {} } body) :
    Proceeds env request φ (beginNested body >>= next) := by
  refine call blank fun _ _ => ?_
  change Proceeds env request { φ with saved := some φ.writes } ((body.attempt _ >>= _) >>= next)
  rw [Prog.bind_assoc]
  have begun : (procedure env).Follows request
      (fun φ value => Proceeds env request { φ with saved := none } (next value)) (fun _ _ => True)
      { φ with saved := some φ.writes } body := by rwa [blank] at *
  refine Protocol.Follows.bind (begun.attempt fun _ _ _ => ⟨trivial, fun _ _ => trivial⟩) fun ψ value then_ => ?_
  exact call trivial fun _ _ => then_

theorem createTransfer (a b : UUID) (amount : Amount) (key : String) :
    Proceeds env (.createTransfer a b amount key) {} (createTransfer env a b amount.value key) := by
  refine call trivial fun rows _ => ?_
  rcases rows with _ | ⟨existing, _ | ⟨_, _⟩⟩
  · refine ite (fun _ => trivial) fun different => call ⟨rfl, rfl⟩ fun rows returned => ?_
    obtain ⟨parties, sorted⟩ := returns_selectAccountsIn returned
    have named : ∀ y ∈ rows.map (·.accountId), y ∈ [a, b] := by
      intro y member
      obtain ⟨account, listed, rfl⟩ := List.mem_map.1 member
      exact (List.mem_insertionSort _).1 (parties account listed)
    refine lockRows rfl rfl rfl sorted (fun y first z second => .inr ⟨trivial, named y first, named z second⟩) ?_
    refine ite (fun _ => trivial) fun _ => ?_
    cases found : rows.find? (·.accountId = a) with
    | none => trivial
    | some source =>
    cases found' : rows.find? (·.accountId = b) with
    | none => trivial
    | some destination =>
    have payer : a ∈ rows.map (·.accountId) :=
      List.mem_map.2 ⟨source, List.mem_of_find?_eq_some found, by simpa using List.find?_some found⟩
    have payee : b ∈ rows.map (·.accountId) :=
      List.mem_map.2 ⟨destination, List.mem_of_find?_eq_some found', by simpa using List.find?_some found'⟩
    refine ite (fun _ => trivial) fun _ => ite (fun _ => trivial) fun _ => ite (fun _ => trivial) fun _ => ?_
    refine call rfl fun total _ => ?_
    simp only [decimalOf_eq]
    refine ite (fun _ => trivial) fun enough => Protocol.Follows.attempt (F := fun _ _ => True) ?_
      fun _ _ _ => recoverTransfer
    refine beginNested rfl (flushTransaction rfl (fun _ => ⟨trivial, fun y member => ?_⟩)
      fun transactionId createdAt stamps kept keyless => ?_)
    · exact named y (List.mem_reverse.1 member)
    cases amount.value.neg with
    | none => trivial
    | some debit =>
      refine insertEntry (.inl ?_) fun debited => insertEntry (.inl ?_) fun credited =>
        flushOutboxEvent fun event stamps => ?_
      · simpa using payer
      · simpa using payee
      · refine call ⟨fun x paid same => ?_, fun x party => ?_, fun entry member => ?_, fun x only => ?_,
          by simp [Request.reference, keyless], by simp⟩ fun _ _ => call trivial fun _ _ => ?_
        · cases same
          exact ⟨by simpa using payer, total, by simp, not_lt.1 enough⟩
        · have member : x ∈ rows.map (·.accountId) := by
            rcases List.mem_pair.1 party with rfl | rfl
            · exact payer
            · exact payee
          obtain ⟨account, listed, same⟩ := List.mem_map.1 member
          exact List.mem_map.2 ⟨account, List.mem_append_left _ listed, same⟩
        · rcases List.mem_pair.1 member with rfl | rfl
          · exact .inl List.mem_cons_self
          · exact .inl (List.mem_cons_of_mem _ List.mem_cons_self)
        · cases only
        · refine call trivial fun result _ => ?_
          cases result with
          | error error => trivial
          | ok _ =>
            refine call trivial fun result _ => ?_
            cases result <;> trivial
  · exact replay
  · trivial

theorem computeBalance (x : UUID) : Proceeds env request {} (computeBalance x) := by
  refine call ⟨rfl, rfl⟩ fun rows _ => ?_
  rcases rows with _ | ⟨account, _ | ⟨_, _⟩⟩
  · trivial
  · refine call rfl fun total _ => ?_
    simp only [decimalOf_eq]
    refine call trivial fun result _ => ?_
    cases result <;> trivial
  · trivial

theorem getBalance (x : UUID) : Proceeds env (.getBalance x) {} (getBalance x) := by
  refine call trivial fun result _ => ?_
  rcases result with error | _ | value
  · exact computeBalance x
  · exact computeBalance x
  · rcases read : Decimal.ofStr value with _ | (d | negative | _) <;> simp only [read]
    · exact computeBalance x
    · trivial
    · exact computeBalance x
    · exact computeBalance x

theorem getBalanceAt (x : UUID) (timestamp : Timestamp) :
    Proceeds env (.getBalanceAt x timestamp) {} (getBalanceAt x timestamp) := by
  refine call ⟨rfl, rfl⟩ fun rows _ => ?_
  rcases rows with _ | ⟨account, _ | ⟨_, _⟩⟩
  · trivial
  · refine call trivial fun total _ => ?_
    simp only [decimalOf_eq]
    trivial
  · trivial

end Proceeds

theorem proceeds_body (request : Request) : Proceeds env request {} (body env request) := by
  cases request with
  | createAccount created => exact .bind (.createAccount created) fun _ _ => trivial
  | createDeposit x amount => exact .bind (.createDeposit x amount) fun _ _ => trivial
  | createWithdrawal x amount => exact .bind (.createWithdrawal x amount) fun _ _ => trivial
  | createTransfer a b amount key => exact .bind (.createTransfer a b amount key) fun _ _ => trivial
  | getBalance x => exact .bind (.getBalance x) fun _ _ => trivial
  | getBalanceAt x timestamp => exact .bind (.getBalanceAt x timestamp) fun _ _ => trivial

end LedgerFlow.Ledger
