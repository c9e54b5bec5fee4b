import LedgerFlow.Concurrency.Diary
import LedgerFlow.Ledger.Reporting
import LedgerFlow.Ledger.SystemAccount

/-! Why a client is refused: every error of the routes is the fault of the request itself, or was right about
the committed tables at a moment while the call was running. -/

namespace LedgerFlow.Ledger
open Accounts Outbox Concurrency World

def Request.subject : Request → Option UUID
  | .createDeposit accountId _ => some accountId
  | .createWithdrawal accountId _ => some accountId
  | .getBalance accountId => some accountId
  | .getBalanceAt accountId _ => some accountId
  | _ => none

def Amount.Stored (amount : Amount) (value : Decimal) : Prop := value = amount.value ∨ amount.value.neg = some value

/-- Nothing but the request and the tables' columns makes the call fail. -/
inductive Invalid (env : Deployment) : Request → PyError → Prop where
  | accountType (created : CreateAccountRequest) (unknown : AccountType.ofStr created.accountType = none) :
      Invalid env (.createAccount created)
        (.valueError (pyRepr env.isprintable created.accountType ++ " is not a valid AccountType"))
  | ownerName (created : CreateAccountRequest) (refused : varchar 100 created.ownerName = none) :
      Invalid env (.createAccount created) .dataError
  | currency (created : CreateAccountRequest) (refused : varchar 3 (env.upper created.currency) = none) :
      Invalid env (.createAccount created) .dataError
  | sameAccount (accountId : UUID) (amount : Amount) (key : String) :
      Invalid env (.createTransfer accountId accountId amount key)
        (.valueError "Source and destination accounts must be different")
  | keyRefused (a b : UUID) (amount : Amount) (key : String) (refused : varchar 255 key = none) :
      Invalid env (.createTransfer a b amount key) .dataError
  | overflow (request : Request) (amount : Amount) (posts : request.amount = some amount)
      (none : amount.value.neg = none) : Invalid env request .overflow
  | outOfRange (request : Request) (amount : Amount) (value : Decimal) (posts : request.amount = some amount)
      (stored : amount.Stored value) (none : Numeric.cast 20 2 value = none) : Invalid env request .dataError
  | nothing (request : Request) (amount : Amount) (value : Decimal) (cents : Numeric 20 2)
      (posts : request.amount = some amount)
      (stored : amount.Stored value) (rounds : Numeric.cast 20 2 value = some cents) (zero : cents.unscaled = 0)
      (checked : env.amountNonzero) : Invalid env request .integrityError

/-- The committed tables make the call fail. -/
inductive Refuted (env : Deployment) (db : Tables) : Request → PyError → Prop where
  | absent (request : Request) (x : UUID) (named : request.subject = some x)
      (absent : x ∉ db.accounts.map (·.accountId)) : Refuted env db request (.valueError "Account not found")
  | inactive (request : Request) (account : Account) (named : request.holder = some account.accountId)
      (member : account ∈ db.accounts) (inactive : account.status ≠ .active) :
      Refuted env db request (.valueError "Account is not active")
  | noCash (request : Request) (looks : request.LooksForCash) (none : db.cashAccounts = []) :
      Refuted env db request (.valueError "SYSTEM_CASH account not found")
  | severalCash (request : Request) (looks : request.LooksForCash) (several : 2 ≤ db.cashAccounts.length) :
      Refuted env db request .multipleResultsFound
  | insufficient (request : Request) (x : UUID) (amount : Amount) (pays : request.payment = some (x, amount))
      (short : db.balance x / 100 < amount.value.toRat) : Refuted env db request (.valueError "Insufficient funds")
  | otherRequest (a b : UUID) (amount : Amount) (key : String) (existing : Transaction)
      (member : existing ∈ db.transactions) (keyed : existing.idempotencyKey = some key)
      (other : existing.requestHash ≠ some (generateTransferHash env a b amount.value)) :
      Refuted env db (.createTransfer a b amount key)
        (.valueError "Idempotency key already used for a different request")
  | keyCut (a b : UUID) (amount : Amount) (key kept : String) (cut : varchar 255 key = some kept)
      (other : kept ≠ key) (taken : ∃ existing ∈ db.transactions, existing.idempotencyKey = some kept) :
      Refuted env db (.createTransfer a b amount key) .integrityError
  | missing (a b : UUID) (amount : Amount) (key : String) (x : UUID) (party : x = a ∨ x = b)
      (absent : x ∉ db.accounts.map (·.accountId)) :
      Refuted env db (.createTransfer a b amount key) (.valueError "One or both accounts not found")
  | sourceInactive (b : UUID) (amount : Amount) (key : String) (source : Account) (member : source ∈ db.accounts)
      (inactive : source.status ≠ .active) :
      Refuted env db (.createTransfer source.accountId b amount key) (.valueError "Source account is not active")
  | destinationInactive (a : UUID) (amount : Amount) (key : String) (destination : Account)
      (member : destination ∈ db.accounts) (inactive : destination.status ≠ .active) :
      Refuted env db (.createTransfer a destination.accountId amount key)
        (.valueError "Destination account is not active")
  | currencyMismatch (amount : Amount) (key : String) (source destination : Account) (member : source ∈ db.accounts)
      (member' : destination ∈ db.accounts) (different : source.currency ≠ destination.currency) :
      Refuted env db (.createTransfer source.accountId destination.accountId amount key)
        (.valueError "Currency mismatch")

def Tables.Answers (db : Tables) : (stmt : Stmt) → stmt.Result → Prop
  | .selectAccount x, rows => rows = db.accounts.filter (·.accountId = x)
  | .selectSystemCash, rows => rows = db.cashAccounts
  | .selectAccountsIn ids, rows => rows.Perm (db.accounts.filter (·.accountId ∈ ids))
  | .sumEntries x, total => total = coalesceSum (db.amounts x)
  | .selectTransaction key, rows => rows = db.transactions.filter (·.idempotencyKey = some key)
  | .insertTransaction transaction, .error .integrityError =>
    ∃ row key, transaction.stored = some row ∧ row.idempotencyKey = some key ∧
      ∃ existing ∈ db.transactions, existing.idempotencyKey = some key
  | _, _ => True

/-- The call has executed a statement whose result refutes it, whatever the tables were. -/
def Evident (env : Deployment) (request : Request) (φ : Diary language) (error : PyError) : Prop :=
  ∃ entry ∈ φ, ∀ db : Tables, db.Consistent → db.Answers entry.1 entry.2 → Refuted env db request error

def Clashed (key : String) (φ : Diary language) : Prop :=
  ∃ transaction row later earlier, transaction.stored = some row ∧ row.idempotencyKey = some key ∧
    φ = later ++ ⟨.insertTransaction transaction, .error .integrityError⟩ :: earlier

theorem Clashed.append {key : String} {φ : Diary language} (clashed : Clashed key φ) (later : Diary language) :
    Clashed key (later ++ φ) := by
  obtain ⟨transaction, row, between, earlier, stored, keyed, noted⟩ := clashed
  exact ⟨transaction, row, later ++ between, earlier, stored, keyed, by rw [noted, List.append_assoc]⟩

def Vanished (φ : Diary language) : Prop :=
  ∃ key later earlier, Clashed key earlier ∧
    φ = later ++ ⟨.selectTransaction key, ([] : List Transaction)⟩ :: earlier

/-- What there is to say for an exception of a call. -/
def Excused (env : Deployment) (request : Request) (φ : Diary language) (error : PyError) : Prop :=
  error = .failure ∨ Invalid env request error ∨ Evident env request φ error ∨ Vanished φ

def Clean (env : Deployment) (φ : Diary language) : Stmt → Prop
  | .selectTransaction _ => ((procedure env).reread φ).writes = {}
  | _ => True

abbrev refusals (env : Deployment) : Protocol (machine env) (Diary language) := diary (machine env) fun _ => Clean env

variable {env : Deployment} {request : Request} {φ : Diary language} {amount : Amount}

/-- The rest of a call raises excused exceptions only. -/
abbrev Excuses {α : Type} (env : Deployment) (request : Request) (φ : Diary language) (prog : Code α) : Prop :=
  (refusals env).Follows request (fun _ _ => True) (Excused env request) φ prog

theorem Invalid.excused {error : PyError} (invalid : Invalid env request error) :
    Excused env request φ error := .inr (.inl invalid)

theorem Evident.excused {error : PyError} (evident : Evident env request φ error) : Excused env request φ error :=
  .inr (.inr (.inl evident))

theorem Evident.append {error : PyError} (evident : Evident env request φ error) (later : Diary language) :
    Evident env request (later ++ φ) error := by
  obtain ⟨entry, member, refutes⟩ := evident
  exact ⟨entry, List.mem_append_right _ member, refutes⟩

theorem returns_insertTransaction {transaction : Transaction} {error : PyError}
    (returned : (machine env).Returns (.insertTransaction transaction) (.error error)) :
    transaction.stored = none ∧ error = .dataError ∨
      ∃ row key, transaction.stored = some row ∧ row.idempotencyKey = some key ∧ error = .integrityError := by
  obtain ⟨p, choice, w, w', executed⟩ := returned
  change exec env p (.insertTransaction transaction) choice w = _ at executed
  rcases exec_insertTransaction executed with
    ⟨refused, failed, _⟩ | ⟨row, stored, ⟨_, done, _⟩ |
      ⟨key, keyed, ⟨_, failed, _⟩ | ⟨_, _, done, _⟩⟩⟩
  · cases failed
    exact .inl ⟨refused, rfl⟩
  · cases done
  · cases failed
    exact .inr ⟨row, key, stored, keyed, rfl⟩
  · cases done

theorem invalid_insertEntry {transactionId x : UUID} {value : Decimal} {error : PyError}
    (posts : request.amount = some amount)
    (stored : amount.Stored value) (returned : (machine env).Returns (.insertEntry transactionId x value)
      (.error error)) :
    Invalid env request error := by
  obtain ⟨p, choice, w, w', executed⟩ := returned
  simp only [machine, exec] at executed
  split at executed
  · rename_i none
    cases executed
    exact .outOfRange _ _ _ posts stored none
  · rename_i cents rounds
    split_ifs at executed with nothing
    · cases executed
      exact .nothing _ _ _ _ posts stored rounds nothing.2 nothing.1
    all_goals cases executed

namespace Excuses
variable {α β : Type}

theorem call {stmt : Stmt} {next : stmt.Result → Code α} (clean : Clean env φ stmt)
    (rest : ∀ result, (machine env).Returns stmt result → Excuses env request (⟨stmt, result⟩ :: φ)
      (next result)) :
    Excuses env request φ (.call stmt next) :=
  ⟨clean, rest⟩

theorem ite {c : Prop} [Decidable c] {x y : Code α} (yes : c → Excuses env request φ x)
    (no : ¬c → Excuses env request φ y) : Excuses env request φ (if c then x else y) := by
  split_ifs with h
  · exact yes h
  · exact no h

theorem lockAll {rows : List Account} {next : Unit → Code α}
    (rest : ∀ later, Excuses env request (later ++ φ) (next ())) :
    Excuses env request φ (lockAll rows >>= next) := by
  induction rows generalizing φ with
  | nil => exact rest []
  | cons account others ih =>
    refine call trivial fun _ _ => ih fun later => ?_
    have continued := rest (later ++ [⟨.lockAccount account.accountId, ()⟩])
    rwa [List.append_assoc] at continued

theorem lockRows {rows : List Account} {next : List Account → Code α}
    (rest : ∀ later, Excuses env request (later ++ φ) (next rows)) :
    Excuses env request φ ((Ledger.lockAll rows >>= fun _ => .ret rows) >>= next) := by
  rw [Prog.bind_assoc]
  exact lockAll rest

theorem flushTransaction {transactionType : TransactionType} {reference : String} {hash : Option String}
    {next : Transaction → Code α} (rest : ∀ φ transaction, Excuses env request φ (next transaction)) :
    Excuses env request φ (flushTransaction transactionType reference none hash >>= next) := by
  refine call trivial fun transactionId _ => call trivial fun createdAt _ => call trivial fun result returned => ?_
  cases result with
  | error error =>
    rcases returns_insertTransaction returned with ⟨refused, _⟩ | ⟨row, key, stored, keyed, _⟩
    · cases refused
    · cases stored
      cases keyed
  | ok _ => exact rest _ _

theorem insertEntry {transactionId x : UUID} {value : Decimal} {next : Unit → Code α}
    (posts : request.amount = some amount)
    (stored : amount.Stored value) (rest : ∀ φ, Excuses env request φ (next ())) :
    Excuses env request φ (insertEntry transactionId x value >>= next) := by
  refine call trivial fun result returned => ?_
  cases result with
  | error error => exact Invalid.excused (invalid_insertEntry posts stored returned)
  | ok _ => exact rest _

theorem flushOutboxEvent {aggregateId : UUID} {eventType : String} {payload : Json} {next : Unit → Code α}
    (rest : ∀ φ, Excuses env request φ (next ())) :
    Excuses env request φ (flushOutboxEvent aggregateId eventType payload >>= next) :=
  call trivial fun _ _ => call trivial fun _ _ => call trivial fun _ _ => rest _

theorem afterwards {transaction : Transaction} {x : UUID} {value : Transaction → α} :
    Excuses env request φ (do
      commit
      let transaction ← refresh transaction
      bestEffort (invalidateBalance x)
      .ret (value transaction)) := by
  refine call trivial fun _ _ => call trivial fun _ _ => call trivial fun result _ => ?_
  cases result <;> trivial

theorem ambiguous {stmt : Stmt} {result : stmt.Result} {error : PyError}
    (unique : ∀ db : Tables, db.Consistent → ¬db.Answers stmt result) :
    Excused env request (⟨stmt, result⟩ :: φ) error :=
  Evident.excused ⟨_, List.mem_cons_self, fun db consistent answers => absurd answers (unique db consistent)⟩

theorem account_unique {x : UUID} {account other : Account} {rows : List Account} (db : Tables)
    (consistent : db.Consistent) : ¬db.Answers (.selectAccount x) (account :: other :: rows) := by
  intro answers
  rcases consistent.account_cases x with ⟨none, _⟩ | ⟨_, _, _, one⟩
  · cases answers.trans none
  · cases answers.trans one

theorem transaction_unique {key : String} {transaction other : Transaction} {rows : List Transaction} (db : Tables)
    (consistent : db.Consistent) : ¬db.Answers (.selectTransaction key) (transaction :: other :: rows) := by
  intro answers
  rcases consistent.key_cases key with ⟨none, _⟩ | ⟨_, _, _, one⟩
  · cases answers.trans none
  · cases answers.trans one

theorem absent {x : UUID} (named : request.subject = some x) :
    Excused env request (⟨.selectAccount x, ([] : List Account)⟩ :: φ) (.valueError "Account not found") := by
  refine Evident.excused ⟨_, List.mem_cons_self, fun db consistent answers => ?_⟩
  apply Refuted.absent _ x named
  rcases consistent.account_cases x with ⟨_, absent⟩ | ⟨_, _, _, one⟩
  · exact absent
  · cases Eq.trans answers one

theorem inactive {account : Account} (named : request.holder = some account.accountId)
    (inactive : account.status ≠ .active) (found : ⟨.selectAccount account.accountId, [account]⟩ ∈ φ) :
    Excused env request φ (.valueError "Account is not active") := by
  refine Evident.excused ⟨_, found, fun db _ answers => ?_⟩
  have member : account ∈ db.accounts.filter (·.accountId = account.accountId) :=
    answers ▸ List.mem_singleton_self account
  exact .inactive _ account named (List.mem_filter.1 member).1 inactive

theorem noCash (looks : request.LooksForCash) :
    Excused env request (⟨.selectSystemCash, ([] : List Account)⟩ :: φ)
    (.valueError "SYSTEM_CASH account not found") :=
  Evident.excused ⟨_, List.mem_cons_self, fun _ _ answers => .noCash _ looks (Eq.symm answers)⟩

theorem severalCash {account other : Account} {rows : List Account} (looks : request.LooksForCash) :
    Excused env request (⟨.selectSystemCash, (account :: other :: rows : List Account)⟩ :: φ)
    .multipleResultsFound := by
  refine Evident.excused ⟨_, List.mem_cons_self, fun db _ answers => .severalCash _ looks ?_⟩
  have rows : db.cashAccounts = account :: other :: rows := Eq.symm answers
  simp [rows]

theorem insufficient {x : UUID} {total : Decimal} (pays : request.payment = some (x, amount))
    (short : total < amount.value) :
    Excused env request (⟨.sumEntries x, total⟩ :: φ) (.valueError "Insufficient funds") := by
  refine Evident.excused ⟨_, List.mem_cons_self, fun db _ answers => .insufficient _ x amount pays ?_⟩
  have summed : total = coalesceSum (db.amounts x) := answers
  rw [← Tables.total_toRat, ← summed]
  exact short

theorem createAccount (created : CreateAccountRequest) : Excuses env (.createAccount created) []
    (createAccount env created) := by
  unfold Ledger.createAccount
  cases known : AccountType.ofStr created.accountType with
  | none => exact Invalid.excused (.accountType created known)
  | some accountType =>
    refine call trivial fun accountId _ => call trivial fun result returned => ?_
    cases result with
    | error error =>
      obtain ⟨p, choice, w, w', executed⟩ := returned
      simp only [machine, exec] at executed
      split at executed
      · rename_i refused
        cases executed
        rcases Account.refused_cases refused with owner | currency
        · exact Invalid.excused (.ownerName created owner)
        · exact Invalid.excused (.currency created currency)
      · cases executed
    | ok _ => exact call trivial fun _ _ => call trivial fun _ _ => trivial

theorem createDeposit (x : UUID) (amount : Amount) :
    Excuses env (.createDeposit x amount) [] (createDeposit x amount.value) := by
  refine call trivial fun rows returned => ?_
  rcases rows with _ | ⟨account, _ | ⟨_, _⟩⟩
  · exact absent rfl
  · obtain rfl : account.accountId = x := returns_selectAccount returned account List.mem_cons_self
    refine ite (fun blocked => inactive rfl blocked List.mem_cons_self) fun active => call trivial fun rows _ => ?_
    rcases rows with _ | ⟨system, _ | ⟨_, _⟩⟩
    · exact noCash trivial
    · refine flushTransaction fun φ transaction => ?_
      cases negated : amount.value.neg with
      | none => exact Invalid.excused (.overflow _ amount rfl negated)
      | some debit =>
        refine insertEntry rfl (.inr negated) fun φ => insertEntry rfl (.inl rfl) fun φ =>
          flushOutboxEvent fun φ => ?_
        exact afterwards
    · exact severalCash trivial
  · exact ambiguous account_unique

theorem createWithdrawal (x : UUID) (amount : Amount) :
    Excuses env (.createWithdrawal x amount) [] (createWithdrawal x amount.value) := by
  refine call trivial fun rows returned => ?_
  rcases rows with _ | ⟨account, _ | ⟨_, _⟩⟩
  · exact absent rfl
  · obtain rfl : account.accountId = x := returns_selectAccount returned account List.mem_cons_self
    refine lockRows fun later => ?_
    refine ite (fun blocked => inactive rfl blocked (by simp)) fun active => call trivial fun total _ => ?_
    simp only [decimalOf_eq]
    refine ite (fun short => insufficient rfl short) fun enough => call trivial fun rows _ => ?_
    rcases rows with _ | ⟨system, _ | ⟨_, _⟩⟩
    · exact noCash trivial
    · refine flushTransaction fun φ transaction => ?_
      cases negated : amount.value.neg with
      | none => exact Invalid.excused (.overflow _ amount rfl negated)
      | some debit =>
        refine insertEntry rfl (.inr negated) fun φ => insertEntry rfl (.inl rfl) fun φ =>
          flushOutboxEvent fun φ => ?_
        exact afterwards
    · exact severalCash trivial
  · refine lockRows fun later => Evident.excused
      ⟨_, List.mem_append_right _ List.mem_cons_self, fun db consistent answers => ?_⟩
    exact absurd answers (account_unique db consistent)

theorem replay {a b : UUID} {key : String} {existing : Transaction}
    (found : ⟨.selectTransaction key, [existing]⟩ ∈ φ) :
    Excuses env (.createTransfer a b amount key) φ
    (replay (generateTransferHash env a b amount.value) existing) := by
  apply ite
  · intro other
    refine Evident.excused ⟨_, found, fun db _ answers => ?_⟩
    have member : existing ∈ db.transactions.filter (·.idempotencyKey = some key) :=
      answers ▸ List.mem_singleton_self existing
    have listed := List.mem_filter.1 member
    exact .otherRequest a b amount key existing listed.1 (by simpa using listed.2) other
  · exact fun _ => trivial

def Raised (env : Deployment) (request : Request) (key : String) (φ : Diary language) (error : PyError) : Prop :=
  Invalid env request error ∨ Evident env request φ error ∨ error = .integrityError ∧ Clashed key φ

theorem recoverTransfer {a b : UUID} {key : String} {error : PyError}
    (raised : Raised env (.createTransfer a b amount key) key φ error) :
    Excuses env (.createTransfer a b amount key) φ
      (recoverTransfer key (generateTransferHash env a b amount.value) error) := by
  cases error with
  | integrityError =>
    refine call trivial fun _ _ => call rfl fun rows _ => ?_
    rcases rows with _ | ⟨existing, _ | ⟨_, _⟩⟩
    · rcases raised with invalid | evident | ⟨_, clashed⟩
      · exact invalid.excused
      · exact (evident.append [⟨.selectTransaction key, []⟩, ⟨.rollback, ()⟩]).excused
      · exact .inr (.inr (.inr ⟨key, [], _, clashed.append [⟨.rollback, ()⟩], rfl⟩))
    · exact replay List.mem_cons_self
    · exact ambiguous transaction_unique
  | _ =>
    rcases raised with invalid | evident | ⟨same, _⟩
    · exact invalid.excused
    · exact evident.excused
    · cases same

theorem keyCut {a b : UUID} {key kept : String} {transaction row : Transaction} {db : Tables}
    (asked : transaction.idempotencyKey = some key) (stored : transaction.stored = some row)
    (keyed : row.idempotencyKey = some kept) (cut : kept ≠ key)
    (answers : db.Answers (.insertTransaction transaction) (.error .integrityError)) :
    Refuted env db (.createTransfer a b amount key) .integrityError := by
  obtain ⟨row', kept', stored', keyed', taken⟩ := answers
  cases stored.symm.trans stored'
  cases keyed.symm.trans keyed'
  obtain ⟨_, keeps⟩ := Transaction.stored_cases stored
  rw [keyed, asked] at keeps
  exact .keyCut a b amount key kept keeps.symm cut taken

theorem postTransfer {a b : UUID} {key hash currency : String} :
    (refusals env).Follows (.createTransfer a b amount key) (fun _ _ => True)
      (Raised env (.createTransfer a b amount key) key) φ (postTransfer a b amount.value key hash currency) := by
  refine ⟨trivial, fun transactionId _ =>
    ⟨trivial, fun createdAt _ => ⟨trivial, fun result returned => ?_⟩⟩⟩
  cases result with
  | error error =>
    rcases returns_insertTransaction returned with ⟨refused, rfl⟩ | ⟨row, kept, stored, keyed, rfl⟩
    · rw [Transaction.stored_keyed rfl, Option.map_eq_none_iff] at refused
      exact .inl (.keyRefused a b amount key refused)
    · by_cases cut : kept = key
      · subst cut
        exact .inr (.inr ⟨rfl, _, row, [], _, stored, keyed, rfl⟩)
      · refine .inr (.inl ⟨_, List.mem_cons_self, fun db _ answers => ?_⟩)
        exact keyCut rfl stored keyed cut answers
  | ok _ =>
    change (refusals env).Follows _ _ _ _ (Prog.bind (Prog.ret _) _)
    simp only [Prog.bind]
    cases negated : amount.value.neg with
    | none => exact .inl (.overflow _ amount rfl negated)
    | some debit =>
      refine ⟨trivial, fun result returned => ?_⟩
      cases result with
      | error error => exact .inl (invalid_insertEntry rfl (.inr negated) returned)
      | ok _ =>
        refine ⟨trivial, fun result returned => ?_⟩
        cases result with
        | error error => exact .inl (invalid_insertEntry rfl (.inl rfl) returned)
        | ok _ => exact ⟨trivial, fun _ _ => ⟨trivial, fun _ _ => ⟨trivial, fun _ _ => trivial⟩⟩⟩

theorem beginNested {a b : UUID} {key hash currency : String} {next : Transaction → Code Transaction}
    (rest : ∀ φ transaction, (refusals env).Follows (.createTransfer a b amount key) (fun _ _ => True)
      (Raised env (.createTransfer a b amount key) key) φ (next transaction)) :
    (refusals env).Follows (.createTransfer a b amount key) (fun _ _ => True)
      (Raised env (.createTransfer a b amount key) key) φ
      (beginNested (Ledger.postTransfer a b amount.value key hash currency) >>= next) := by
  refine ⟨trivial, fun _ _ => ?_⟩
  change (refusals env).Follows _ _ _ _ ((Prog.attempt _ _ >>= _) >>= next)
  rw [Prog.bind_assoc]
  refine Protocol.Follows.bind (Protocol.Follows.attempt postTransfer ?_) fun φ transaction _ => ?_
  · intro φ error raised
    refine ⟨trivial, fun _ _ => ?_⟩
    exact raised.imp id (Or.imp (·.append [_])
      (And.imp id fun clashed => clashed.append [⟨.rollbackToSavepoint, ()⟩]))
  · exact ⟨trivial, fun _ _ => rest _ transaction⟩

theorem mem_pair {a b x : UUID} : x ∈ [a, b].insertionSort (· ≤ ·) ↔ x = a ∨ x = b := by
  rw [List.mem_insertionSort]
  simp

theorem answers_pair {db : Tables} {a b : UUID} {rows : List Account}
    (answers : db.Answers (.selectAccountsIn ([a, b].insertionSort (· ≤ ·))) rows) :
    rows.Perm (db.accounts.filter fun account => account.accountId = a ∨ account.accountId = b) := by
  have same : (fun account : Account => decide (account.accountId ∈ [a, b].insertionSort (· ≤ ·))) =
      fun account => decide (account.accountId = a ∨ account.accountId = b) := by
    funext account
    exact decide_eq_decide.2 mem_pair
  rw [← same]
  exact answers

theorem party {db : Tables} {a b x : UUID} {rows : List Account} {account : Account}
    (answers : db.Answers (.selectAccountsIn ([a, b].insertionSort (· ≤ ·))) rows)
    (found : rows.find? (·.accountId = x) = some account) : account ∈ db.accounts ∧ account.accountId = x := by
  have listed := (answers_pair answers).mem_iff.1 (List.mem_of_find?_eq_some found)
  exact ⟨(List.mem_filter.1 listed).1, by simpa using List.find?_some found⟩

theorem createTransfer (a b : UUID) (amount : Amount) (key : String) :
    Excuses env (.createTransfer a b amount key) [] (createTransfer env a b amount.value key) := by
  refine call rfl fun rows _ => ?_
  rcases rows with _ | ⟨existing, _ | ⟨_, _⟩⟩
  · refine ite (fun same => ?_) fun different => call trivial fun rows _ => ?_
    · subst same
      exact Invalid.excused (.sameAccount a amount key)
    refine lockRows fun later => ?_
    have found : ⟨.selectAccountsIn ([a, b].insertionSort (· ≤ ·)), rows⟩ ∈ later ++
        ⟨.selectAccountsIn ([a, b].insertionSort (· ≤ ·)), rows⟩ ::
          ([⟨.selectTransaction key, ([] : List Transaction)⟩] : Diary language) :=
      List.mem_append_right _ List.mem_cons_self
    generalize later ++ _ = φ at found ⊢
    refine ite (fun missing => ?_) fun both => ?_
    · refine Evident.excused ⟨_, found, fun db consistent answers => ?_⟩
      rcases consistent.pair_cases different (answers_pair answers) with ⟨_, x, party, absent⟩ | ⟨two, _, _⟩
      · exact .missing a b amount key x party absent
      · exact absurd two missing
    have present : ∀ (db : Tables), db.Consistent →
        db.Answers (.selectAccountsIn ([a, b].insertionSort (· ≤ ·))) rows →
        a ∈ rows.map (·.accountId) ∧ b ∈ rows.map (·.accountId) := by
      intro db consistent answers
      rcases consistent.pair_cases different (answers_pair answers) with ⟨other, _⟩ | ⟨_, members⟩
      · exact absurd (not_not.1 both) other
      · exact members
    cases source? : rows.find? (·.accountId = a) with
    | none =>
      refine Evident.excused ⟨_, found, fun db consistent answers => ?_⟩
      obtain ⟨_, _, _, some⟩ := Tables.find_account (present db consistent answers).1
      cases source?.symm.trans some
    | some source =>
    cases destination? : rows.find? (·.accountId = b) with
    | none =>
      refine Evident.excused ⟨_, found, fun db consistent answers => ?_⟩
      obtain ⟨_, _, _, some⟩ := Tables.find_account (present db consistent answers).2
      cases destination?.symm.trans some
    | some destination =>
    refine ite (fun inactive => ?_) fun _ => ite (fun inactive => ?_) fun _ => ite (fun mismatch => ?_) fun _ => ?_
    · refine Evident.excused ⟨_, found, fun db consistent answers => ?_⟩
      obtain ⟨member, rfl⟩ := party answers source?
      exact .sourceInactive b amount key source member inactive
    · refine Evident.excused ⟨_, found, fun db consistent answers => ?_⟩
      obtain ⟨member, rfl⟩ := party answers destination?
      exact .destinationInactive a amount key destination member inactive
    · refine Evident.excused ⟨_, found, fun db consistent answers => ?_⟩
      obtain ⟨member, rfl⟩ := party answers source?
      obtain ⟨member', rfl⟩ := party answers destination?
      exact .currencyMismatch amount key source destination member member' mismatch
    refine call trivial fun total _ => ?_
    simp only [decimalOf_eq]
    refine ite (fun short => insufficient rfl short) fun _ => ?_
    refine Protocol.Follows.attempt (F := Raised env (.createTransfer a b amount key) key) ?_
      fun φ error raised => ?_
    · refine beginNested fun φ transaction =>
        ⟨trivial, fun _ _ => ⟨trivial, fun _ _ => ⟨trivial, fun result _ => ?_⟩⟩⟩
      cases result with
      | error error => trivial
      | ok _ =>
        refine ⟨trivial, fun result _ => ?_⟩
        cases result <;> trivial
    · exact recoverTransfer raised
  · exact replay List.mem_cons_self
  · exact ambiguous transaction_unique

theorem computeBalance (x : UUID) : Excuses env (.getBalance x) φ (computeBalance x) := by
  refine call trivial fun rows _ => ?_
  rcases rows with _ | ⟨account, _ | ⟨_, _⟩⟩
  · exact absent rfl
  · refine call trivial fun total _ => ?_
    simp only [decimalOf_eq]
    refine call trivial fun result _ => ?_
    cases result <;> trivial
  · exact ambiguous account_unique

theorem getBalance (x : UUID) : Excuses env (.getBalance x) [] (getBalance x) := by
  refine call trivial fun result _ => ?_
  rcases result with error | _ | value
  · exact computeBalance x
  · exact computeBalance x
  · rcases read : Decimal.ofStr value with _ | (d | negative | _) <;> simp only [read]
    · exact computeBalance x
    · trivial
    · exact computeBalance x
    · exact computeBalance x

theorem getBalanceAt (x : UUID) (timestamp : Timestamp) :
    Excuses env (.getBalanceAt x timestamp) [] (getBalanceAt x timestamp) := by
  refine call trivial fun rows _ => ?_
  rcases rows with _ | ⟨account, _ | ⟨_, _⟩⟩
  · exact absent rfl
  · refine call trivial fun total _ => ?_
    simp only [decimalOf_eq]
    trivial
  · exact ambiguous account_unique

end Excuses

theorem excuses_body (request : Request) : Excuses env request [] (body env request) := by
  cases request with
  | createAccount created => exact Protocol.Follows.bind (Excuses.createAccount created) fun _ _ _ => trivial
  | createDeposit x amount => exact Protocol.Follows.bind (Excuses.createDeposit x amount) fun _ _ _ => trivial
  | createWithdrawal x amount => exact Protocol.Follows.bind (Excuses.createWithdrawal x amount) fun _ _ _ => trivial
  | createTransfer a b amount key =>
    exact Protocol.Follows.bind (Excuses.createTransfer a b amount key) fun _ _ _ => trivial
  | getBalance x => exact Protocol.Follows.bind (Excuses.getBalance x) fun _ _ _ => trivial
  | getBalanceAt x timestamp => exact Protocol.Follows.bind (Excuses.getBalanceAt x timestamp) fun _ _ _ => trivial

section Runs
variable {w : World} {s : State (machine env)} {ok : State (machine env) → Action (machine env) → Prop}
  {trace : List (Executed language)} {p : ℕ}

theorem answers_of_performed (opening : w.Opening) {stmt : Stmt} {result : stmt.Result} {earlier : Diary language}
    {u : State (machine env)} {proc : Proc (machine env)}
    (performed : Performed (machine env) ok w s p stmt result earlier trace u proc) :
    u.world.db.Answers stmt result := by
  obtain ⟨next, rest⟩ := performed.next
  obtain ⟨choice, w', executed⟩ := performed.executed
  have tracks := tracks_of_traces opening performed.traces (Protocol.open_of_call performed.found rest)
  have allowed := allowed_of_traces performed.traces performed.found rest
  cases stmt with
  | selectAccount x =>
    cases executed
    rw [tracks.visible allowed.1]
    rfl
  | selectSystemCash =>
    cases executed
    rw [tracks.visible allowed.1]
    rfl
  | selectAccountsIn ids =>
    cases executed
    rw [tracks.visible allowed.1]
    exact List.perm_insertionSort _ _
  | sumEntries x =>
    cases executed
    rw [tracks.visible allowed]
    rfl
  | selectTransaction key =>
    cases executed
    have follows := Protocol.follows_of_traces (Φ := fun _ => True) (Q := fun _ _ _ => True) (fun _ _ _ _ => trivial)
      (fun request _ => excuses_body request) (fun _ => .inl rfl) performed.traces performed.found
    rw [rest] at follows
    have clean : (progress env p trace).writes = {} := by
      rw [progress, ← Protocol.reread_diary]
      exact follows.1
    rw [tracks.visible clean]
    rfl
  | insertTransaction transaction =>
    change exec env p (.insertTransaction transaction) choice u.world = _ at executed
    rcases exec_insertTransaction executed with
      ⟨_, rfl, _⟩ | ⟨row, stored, ⟨_, rfl, _⟩ |
        ⟨key, keyed, ⟨taken, rfl, _⟩ | ⟨_, _, rfl, _⟩⟩⟩
    · trivial
    · trivial
    · rw [tracks.visible allowed.1] at taken
      exact ⟨row, key, stored, keyed, taken⟩
    · trivial
  | _ => trivial

theorem not_vanished (opening : w.Opening) (traces : (machine env).Traces ok ((machine env).initial w) trace s) :
    ¬Vanished ((refusals env).phase p trace) := by
  intro vanished
  obtain ⟨key, later, earlier, ⟨transaction, row, between, oldest, stored, keyed, noted'⟩, noted⟩ := vanished
  obtain ⟨trace', t, proc, looked⟩ := performed_of_diary traces noted
  obtain ⟨_, u, _, refused⟩ := performed_of_diary looked.traces (looked.noted.trans noted')
  obtain ⟨row', key', stored', keyed', existing, member, held⟩ := answers_of_performed opening refused
  cases stored.symm.trans stored'
  cases keyed.symm.trans keyed'
  obtain ⟨rows, grown⟩ := grows_of_runs opening refused.traces.runs refused.later
  have answers : ([] : List Transaction) = t.world.db.transactions.filter (·.idempotencyKey = some key) :=
    answers_of_performed opening looked
  have found : existing ∈ t.world.db.transactions.filter (·.idempotencyKey = some key) := by
    apply List.mem_filter.2
    rw [grown]
    exact ⟨List.mem_append_left _ member, by simpa using held⟩
  rw [← answers] at found
  cases found

theorem refusal_of_runs (opening : w.Opening) (runs : (machine env).Runs ok ((machine env).initial w) s)
    {proc : Proc (machine env)} {error : PyError} (found : s.procs p = some proc) (raised : proc.rest = .raise error)
    (alive : error ≠ .failure) :
    Invalid env proc.request error ∨ ∃ u : State (machine env),
    (machine env).Runs ok ((machine env).initial w) u ∧
      (machine env).Runs ok u s ∧ requestOf p u = some proc.request ∧ (answer p u).isNone ∧
        Refuted env u.world.db proc.request error := by
  obtain ⟨trace, traces⟩ := Machine.Runs.traces runs
  have excused := Protocol.follows_of_traces (Φ := fun _ => True) (Q := fun _ _ _ => True) (fun _ _ _ _ => trivial)
    (fun request _ => excuses_body request) (fun _ => .inl rfl) traces found
  rw [raised] at excused
  rcases excused with failure | invalid | evident | vanished
  · exact absurd failure alive
  · exact .inl invalid
  · obtain ⟨⟨stmt, result⟩, noted, refutes⟩ := evident
    obtain ⟨later, earlier, noted⟩ := List.append_of_mem noted
    obtain ⟨_, u, before, performed⟩ := performed_of_diary traces noted
    obtain ⟨next, rest⟩ := performed.next
    obtain ⟨after, found', same⟩ := Machine.Runs.request performed.later performed.found
    obtain rfl := Option.some.inj (found.symm.trans found')
    have consistent := consistent_of_runs opening performed.traces.runs
    refine .inr ⟨u, performed.traces.runs, performed.later, ?_, ?_, ?_⟩
    · rw [requestOf_eq performed.found, same]
    · rw [answer, performed.found]
      simp only [rest]
      rfl
    · exact refutes _ consistent (answers_of_performed opening performed)
  · exact absurd vanished (not_vanished opening traces)

theorem refusal_cases {e : HttpError} (replied : reply p s = some (.error e)) :
    ∃ proc error, s.procs p = some proc ∧ proc.rest = .raise error ∧ e = httpError proc.request error := by
  unfold reply at replied
  cases found : s.procs p with
  | none =>
    have absent : requestOf p s = none := by
      rw [requestOf, found]
      rfl
    simp [absent] at replied
  | some proc =>
    rw [requestOf_eq found] at replied
    cases answered : answer p s with
    | none => simp [answered] at replied
    | some result =>
      cases result with
      | ok value => simp [answered] at replied
      | error error =>
        simp only [answered, Option.some.injEq, Except.error.injEq] at replied
        exact ⟨proc, error, rfl, answer_eq_error found answered, replied.symm⟩

/-- An error that a client is told is the fault of the request, or was right at a moment
while the call was running. -/
theorem refusals_justified (opening : w.Opening) (runs : (machine env).Runs ok ((machine env).initial w) s)
    {e : HttpError} (asked : requestOf p s = some request) (replied : reply p s = some (.error e))
    (alive : e ≠ .unhandled .failure) :
    ∃ error, e = httpError request error ∧ (Invalid env request error ∨
      ∃ u : State (machine env), (machine env).Runs ok ((machine env).initial w) u ∧ (machine env).Runs ok u s ∧
        requestOf p u = some request ∧ (answer p u).isNone ∧ Refuted env u.world.db request error) := by
  obtain ⟨proc, error, found, raised, rfl⟩ := refusal_cases replied
  obtain rfl : proc.request = request := Option.some.inj ((requestOf_eq found).symm.trans asked)
  refine ⟨error, rfl, refusal_of_runs opening runs found raised ?_⟩
  intro failure
  subst failure
  apply alive
  cases proc.request <;> rfl

end Runs

def twoHundred : Amount := ⟨⟨false, 20000, -2⟩, rfl, by decide⟩

theorem refusals_justified_sample : ∃ s : State (machine sample),
    reply 0 s = some (.error (.httpException 400 "Insufficient funds")) ∧
      ∃ error, .httpException 400 "Insufficient funds" = httpError (.createWithdrawal 2 twoHundred) error ∧
        (Invalid sample (.createWithdrawal 2 twoHundred) error ∨
          ∃ u : State (machine sample), (machine sample).Runs (machine sample).anything
          ((machine sample).initial bank) u ∧
            (machine sample).Runs (machine sample).anything u s ∧
            requestOf 0 u = some (.createWithdrawal 2 twoHundred) ∧
              (answer 0 u).isNone ∧ Refuted sample u.world.db (.createWithdrawal 2 twoHundred) error) := by
  have executed : ((machine sample).run (fun _ _ => true) ((machine sample).initial bank)
      [.start 0 (.createWithdrawal 2 twoHundred), .step 0 .proceed, .step 0 .proceed, .step 0 .proceed]).map
      (fun s => (requestOf 0 s, reply 0 s)) = some (some (.createWithdrawal 2 twoHundred),
        some (.error (.httpException 400 "Insufficient funds"))) := by
    decide +kernel
  obtain ⟨s, runs, observed⟩ := Machine.Runs.of_observed _ (fun _ _ _ => trivial) executed
  simp only [Prod.mk.injEq] at observed
  exact ⟨s, observed.2, refusals_justified bank_opening runs observed.1 observed.2 (by decide)⟩

end LedgerFlow.Ledger
