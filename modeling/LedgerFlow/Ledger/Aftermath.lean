import LedgerFlow.Concurrency.Sequel
import LedgerFlow.Ledger.Contract
import LedgerFlow.Ledger.Procedure

/-! What a call still does once it has committed. -/

namespace LedgerFlow.Ledger
open Accounts Outbox Concurrency

def Exchanges : Stmt → Prop
  | .commit | .redisGet _ | .redisSet _ _ => True
  | _ => False

/-- The rest of a call after its commit raises nothing, commits nothing more, deletes the cached balances of
the accounts that the call names, and does nothing else with the cache. -/
structure Aftermath (request : Request) (rest : Code Value) : Prop where
  raises : rest.NeverRaises
  quiet : rest.Never Exchanges
  deletes : ∀ x ∈ request.accounts, Deletes x rest

abbrev Concludes (env : Deployment) (request : Request) (prog : Code Value) : Prop :=
  prog.Then (machine env).Returns (· = Stmt.commit) (Aftermath request)

variable {env : Deployment} {request : Request}

namespace Aftermath
variable {a b id : UUID} {next next' : List Transaction → Except PyError Unit → Code Value}

theorem of_returns {prog : Code Value} (returns : ∃ value, prog = .ret value) : prog.NeverRaises ∧
    prog.Never Exchanges := by
  obtain ⟨value, rfl⟩ := returns
  exact ⟨trivial, trivial⟩

theorem single (named : request.accounts = [a]) (pure : ∀ rows result, ∃ value, next rows result = .ret value) :
    Aftermath request
      (.call (.refreshTransaction id) fun rows => .call (.redisDelete (balanceCacheKey a)) (next rows)) where
  raises rows result := (of_returns (pure rows result)).1
  quiet :=
    ⟨by simp [Exchanges], fun rows => ⟨by simp [Exchanges], fun result => (of_returns (pure rows result)).2⟩⟩
  deletes x member := by
    obtain rfl := List.mem_singleton.1 (named ▸ member)
    exact .inr fun _ _ => .inl rfl

theorem pair (named : request.accounts = [a, b])
    (failed : ∀ rows error, ∃ value, next rows (.error error) = .ret value)
    (second : ∀ rows, next rows (.ok ()) = .call (.redisDelete (balanceCacheKey b)) (next' rows))
    (pure : ∀ rows result, ∃ value, next' rows result = .ret value) :
    Aftermath request
      (.call (.refreshTransaction id) fun rows => .call (.redisDelete (balanceCacheKey a)) (next rows)) where
  raises (rows : List Transaction) result := by
    rcases result with error | _
    · exact (of_returns (failed rows error)).1
    · rw [second rows]
      exact fun result => (of_returns (pure rows result)).1
  quiet := by
    refine ⟨by simp [Exchanges], fun (rows : List Transaction) => ⟨by simp [Exchanges], fun result => ?_⟩⟩
    rcases result with error | _
    · exact (of_returns (failed rows error)).2
    · rw [second rows]
      exact ⟨by simp [Exchanges], fun result => (of_returns (pure rows result)).2⟩
  deletes x member := by
    rw [named] at member
    refine .inr fun (rows : List Transaction) _ => ?_
    rcases List.mem_pair.1 member with rfl | rfl
    · exact .inl rfl
    · refine .inr fun result answered => ?_
      obtain rfl : result = .ok () := answered
      rw [second rows]
      exact .inl rfl

end Aftermath

namespace Concludes

theorem other {stmt : Stmt} {next : stmt.Result → Code Value} (other : stmt ≠ .commit)
    (rest : ∀ result, (machine env).Returns stmt result → Concludes env request (next result)) :
    Concludes env request (.call stmt next) :=
  Prog.Then.other other rest

theorem commit {next : Unit → Code Value} (aftermath : Aftermath request (next ())) :
    Concludes env request (.call .commit next) :=
  fun _ _ => ⟨fun _ => aftermath, (aftermath.quiet.weaken fun stmt same => by subst same; trivial).then⟩

theorem ite {α : Type} {c : Prop} [Decidable c] {x y : Code α} {next : α → Code Value}
    (yes : c → Concludes env request (x >>= next)) (no : ¬c → Concludes env request (y >>= next)) :
    Concludes env request ((if c then x else y) >>= next) := by
  split_ifs with h
  · exact yes h
  · exact no h

theorem lockAll {rows : List Account} {next : Unit → Code Value} (rest : Concludes env request (next ())) :
    Concludes env request (lockAll rows >>= next) := by
  induction rows with
  | nil => exact rest
  | cons account others ih => exact other nofun fun _ _ => ih

theorem lockRows {α : Type} {rows : List Account} {next : List Account → Code α} {k : α → Code Value}
    (rest : Concludes env request (next rows >>= k)) :
    Concludes env request ((Ledger.lockAll rows >>= fun _ => .ret rows) >>= next >>= k) := by
  rw [Prog.bind_assoc, Prog.bind_assoc]
  exact lockAll rest

section Inserts
variable {next : Except PyError Unit → Code Value}
  (refused : ∀ error, Concludes env request (next (.error error)))
  (inserted : Concludes env request (next (.ok ())))
include refused inserted

theorem inserts (result : Except PyError Unit) : Concludes env request (next result) := by
  cases result with
  | error error => exact refused error
  | ok _ => exact inserted

theorem insertAccount {account : Account} : Concludes env request (.call (.insertAccount account) next) :=
  other nofun fun result _ => inserts refused inserted result

theorem insertTransaction {transaction : Transaction} :
    Concludes env request (.call (.insertTransaction transaction) next) :=
  other nofun fun result _ => inserts refused inserted result

theorem insertEntry {transactionId x : UUID} {amount : Decimal} :
    Concludes env request (.call (.insertEntry transactionId x amount) next) :=
  other nofun fun result _ => inserts refused inserted result

end Inserts

theorem createAccount (created : CreateAccountRequest) :
    Concludes env (.createAccount created) (body env (.createAccount created)) := by
  simp only [body, Ledger.createAccount]
  cases AccountType.ofStr created.accountType with
  | none => trivial
  | some accountType =>
    refine other nofun fun accountId _ => insertAccount (fun _ => by trivial) (commit ⟨?_, ?_, ?_⟩)
    · exact fun _ => by trivial
    · exact ⟨by simp [Exchanges], fun _ => trivial⟩
    · exact fun x member => by cases member

theorem createDeposit (x : UUID) (amount : Amount) :
    Concludes env (.createDeposit x amount) (body env (.createDeposit x amount)) := by
  refine other nofun fun rows returned => ?_
  rcases rows with _ | ⟨account, _ | ⟨_, _⟩⟩
  · trivial
  · obtain rfl : account.accountId = x := returns_selectAccount returned account List.mem_cons_self
    refine ite (fun _ => trivial) fun active => other nofun fun rows _ => ?_
    rcases rows with _ | ⟨system, _ | ⟨_, _⟩⟩
    · trivial
    · refine other nofun fun transactionId _ => other nofun fun createdAt _ =>
        insertTransaction (fun _ => by trivial) ?_
      cases amount.value.neg with
      | none => trivial
      | some debit =>
        refine insertEntry (fun _ => by trivial) (insertEntry (fun _ => by trivial) ?_)
        refine other nofun fun eventId _ => other nofun fun createdAt _ => other nofun fun _ _ => commit ?_
        refine .single rfl fun rows result => ?_
        cases result <;> exact ⟨_, rfl⟩
    · trivial
  · trivial

theorem createWithdrawal (x : UUID) (amount : Amount) :
    Concludes env (.createWithdrawal x amount) (body env (.createWithdrawal x amount)) := by
  refine other nofun fun rows returned => ?_
  refine lockRows ?_
  rcases rows with _ | ⟨account, _ | ⟨_, _⟩⟩
  · trivial
  · obtain rfl : account.accountId = x := returns_selectAccount returned account List.mem_cons_self
    refine ite (fun _ => trivial) fun active => other nofun fun total _ => ?_
    simp only [decimalOf_eq]
    refine ite (fun _ => trivial) fun enough => other nofun fun rows _ => ?_
    rcases rows with _ | ⟨system, _ | ⟨_, _⟩⟩
    · trivial
    · refine other nofun fun transactionId _ => other nofun fun createdAt _ =>
        insertTransaction (fun _ => by trivial) ?_
      cases amount.value.neg with
      | none => trivial
      | some debit =>
        refine insertEntry (fun _ => by trivial) (insertEntry (fun _ => by trivial) ?_)
        refine other nofun fun eventId _ => other nofun fun createdAt _ => other nofun fun _ _ => commit ?_
        refine .single rfl fun rows result => ?_
        cases result <;> exact ⟨_, rfl⟩
    · trivial
  · trivial

theorem replay {hash : String} {existing : Transaction} {k : Transaction → Code Value}
    (rest : ∀ transaction, Concludes env request (k transaction)) :
    Concludes env request (replay hash existing >>= k) :=
  ite (fun _ => trivial) fun _ => rest existing

theorem recoverTransfer {key hash : String} {error : PyError} {k : Transaction → Code Value}
    (rest : ∀ transaction, Concludes env request (k transaction)) :
    Concludes env request (recoverTransfer key hash error >>= k) := by
  cases error with
  | integrityError =>
    refine other nofun fun _ _ => other nofun fun rows _ => ?_
    rcases rows with _ | ⟨existing, _ | ⟨_, _⟩⟩
    · trivial
    · exact replay rest
    · trivial
  | _ => trivial

theorem createTransfer (a b : UUID) (amount : Amount) (key : String) :
    Concludes env (.createTransfer a b amount key) (body env (.createTransfer a b amount key)) := by
  have recovered : ∀ error, Concludes env (.createTransfer a b amount key)
      (.call .rollbackToSavepoint fun _ =>
        Ledger.recoverTransfer key (generateTransferHash env a b amount.value) error >>= fun t =>
          .ret (.transfer t)) :=
    fun error => other nofun fun _ _ => recoverTransfer fun _ => trivial
  refine other nofun fun rows _ => ?_
  rcases rows with _ | ⟨existing, _ | ⟨_, _⟩⟩
  · refine ite (fun _ => trivial) fun different => other nofun fun rows _ => lockRows ?_
    refine ite (fun _ => trivial) fun _ => ?_
    cases rows.find? (·.accountId = a) with
    | none => trivial
    | some source =>
    cases rows.find? (·.accountId = b) with
    | none => trivial
    | some destination =>
    refine ite (fun _ => trivial) fun _ => ite (fun _ => trivial) fun _ => ite (fun _ => trivial) fun _ => ?_
    refine other nofun fun total _ => ?_
    simp only [decimalOf_eq]
    refine ite (fun _ => trivial) fun enough => other nofun fun _ _ => ?_
    refine other nofun fun transactionId _ => other nofun fun createdAt _ => insertTransaction recovered ?_
    cases amount.value.neg with
    | none => exact recovered .overflow
    | some debit =>
      refine insertEntry recovered (insertEntry recovered ?_)
      refine other nofun fun eventId _ => other nofun fun createdAt _ => other nofun fun _ _ =>
        other nofun fun _ _ => ?_
      refine commit (.pair rfl (fun _ _ => ⟨_, rfl⟩) (fun _ => rfl) fun rows result => ?_)
      cases result <;> exact ⟨_, rfl⟩
  · exact replay fun _ => trivial
  · trivial

theorem computeBalance (x : UUID) : Concludes env request
    (computeBalance x >>= fun balance => .ret (.balance balance)) := by
  refine other nofun fun rows _ => ?_
  rcases rows with _ | ⟨account, _ | ⟨_, _⟩⟩
  · trivial
  · refine other nofun fun total _ => ?_
    simp only [decimalOf_eq]
    refine other nofun fun result _ => ?_
    cases result <;> trivial
  · trivial

theorem getBalance (x : UUID) : Concludes env (.getBalance x) (body env (.getBalance x)) := by
  refine other nofun fun result _ => ?_
  rcases result with error | _ | value
  · exact computeBalance x
  · exact computeBalance x
  · rcases read : Decimal.ofStr value with _ | (d | negative | _) <;> simp only [read]
    · exact computeBalance x
    · trivial
    · exact computeBalance x
    · exact computeBalance x

theorem getBalanceAt (x : UUID) (timestamp : Timestamp) :
    Concludes env (.getBalanceAt x timestamp) (body env (.getBalanceAt x timestamp)) := by
  refine other nofun fun rows _ => ?_
  rcases rows with _ | ⟨account, _ | ⟨_, _⟩⟩
  · trivial
  · refine other nofun fun total _ => ?_
    simp only [decimalOf_eq]
    trivial
  · trivial

end Concludes

theorem concludes_body (request : Request) : Concludes env request (body env request) := by
  cases request with
  | createAccount created => exact .createAccount created
  | createDeposit x amount => exact .createDeposit x amount
  | createWithdrawal x amount => exact .createWithdrawal x amount
  | createTransfer a b amount key => exact .createTransfer a b amount key
  | getBalance x => exact .getBalance x
  | getBalanceAt x timestamp => exact .getBalanceAt x timestamp

variable {ok : State (machine env) → Action (machine env) → Prop} {w w' : World}
  {s : State (machine env)} {p : ℕ} {proc : Proc (machine env)} {choice : Choice} {next : Unit → Code Value}

/-- What a call has left when it has executed its commit. -/
theorem aftermath_of_runs (runs : (machine env).Runs ok ((machine env).initial w) s) (found : s.procs p = some proc)
    (rest : proc.rest = .call .commit next) : Aftermath proc.request (next ()) :=
  runs.then (P := (· = Stmt.commit)) concludes_body found rest rfl ⟨p, .proceed, s.world, _, rfl⟩

end LedgerFlow.Ledger
