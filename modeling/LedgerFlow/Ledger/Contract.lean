import LedgerFlow.Concurrency.RelyGuarantee
import LedgerFlow.Ledger.Isolation

/-! The contract of the ledger service, and a rule for each of its statements. -/

namespace LedgerFlow.Ledger
open Accounts Outbox Concurrency World

def answered : (s : Stmt) → s.Result → Prop
  | .redisGet _, result => ∃ value, result = .ok value
  | .redisSet _ _, result => result = .ok ()
  | .redisDelete _, result => result = .ok ()
  | _, _ => True

/-- While Redis answers, the cached balance of `x` is going to be deleted. -/
def Deletes {α : Type} (x : UUID) (prog : Code α) : Prop :=
  prog.Inevitably (L := language) answered (· = Stmt.redisDelete (balanceCacheKey x))

inductive Refusal (env : Deployment) (permit : Request → Prop) (fromAccountId toAccountId : UUID) (amount : Amount)
    (idempotencyKey : String) (past : List (Stmt × World)) (w : World) : PyError → Prop where
  | otherRequest (existing : Transaction) (member : existing ∈ w.db.transactions)
      (keyed : existing.idempotencyKey = some idempotencyKey)
      (other : existing.requestHash ≠ some (generateTransferHash env fromAccountId toAccountId amount.value)) :
      Refusal env permit fromAccountId toAccountId amount idempotencyKey past w
        (.valueError "Idempotency key already used for a different request")
  | sameAccount (same : fromAccountId = toAccountId) :
      Refusal env permit fromAccountId toAccountId amount idempotencyKey past w
        (.valueError "Source and destination accounts must be different")
  | missing (x : UUID) (party : x = fromAccountId ∨ x = toAccountId)
      (absent : (∀ created, ¬permit (.createAccount created)) → x ∉ w.db.accounts.map (·.accountId)) :
      Refusal env permit fromAccountId toAccountId amount idempotencyKey past w
        (.valueError "One or both accounts not found")
  | sourceInactive (source : Account) (member : source ∈ w.db.accounts) (same : source.accountId = fromAccountId)
      (inactive : source.status ≠ .active) :
      Refusal env permit fromAccountId toAccountId amount idempotencyKey past w
        (.valueError "Source account is not active")
  | destinationInactive (destination : Account) (member : destination ∈ w.db.accounts)
      (same : destination.accountId = toAccountId) (inactive : destination.status ≠ .active) :
      Refusal env permit fromAccountId toAccountId amount idempotencyKey past w
        (.valueError "Destination account is not active")
  | currencyMismatch (source destination : Account) (member : source ∈ w.db.accounts)
      (member' : destination ∈ w.db.accounts) (same : source.accountId = fromAccountId)
      (same' : destination.accountId = toAccountId) (different : source.currency ≠ destination.currency) :
      Refusal env permit fromAccountId toAccountId amount idempotencyKey past w (.valueError "Currency mismatch")
  | insufficientFunds (w₁ : World) (earlier : List (Stmt × World))
      (summed : past = (.sumEntries fromAccountId, w₁) :: earlier)
      (short : coalesceSum (w₁.db.amounts fromAccountId) < amount.value) :
      Refusal env permit fromAccountId toAccountId amount idempotencyKey past w (.valueError "Insufficient funds")
  | overflow (unrepresentable : amount.value.neg = none) :
      Refusal env permit fromAccountId toAccountId amount idempotencyKey past w .overflow
  | keyRefused (refused : varchar 255 idempotencyKey = none) :
      Refusal env permit fromAccountId toAccountId amount idempotencyKey past w .dataError
  | unstorable (refused : ∀ debit credit, ¬Stores env amount.value debit credit) :
      Refusal env permit fromAccountId toAccountId amount idempotencyKey past w .dataError
  | unused (w₁ : World) (earlier : List (Stmt × World))
      (selected : past = (.selectTransaction idempotencyKey, w₁) :: earlier)
        (free : idempotencyKey ∉ w₁.db.keys) :
      Refusal env permit fromAccountId toAccountId amount idempotencyKey past w .integrityError

/-- What a finished call has come to, in a world `w`, after the statements `past`. -/
inductive Outcome (env : Deployment) (permit : Request → Prop) (past : List (Stmt × World)) (w : World) :
    Request → Code Value → Prop where
  | created (request : CreateAccountRequest) (account : Account) (member : account ∈ w.db.accounts) :
      Outcome env permit past w (.createAccount request) (.ret (.account account))
  | deposited (accountId : UUID) (amount : Amount) (transaction : Transaction) (account : Account)
      (member : transaction ∈ w.db.transactions) :
      Outcome env permit past w (.createDeposit accountId amount) (.ret (.posted transaction account))
  | withdrawn (accountId : UUID) (amount : Amount) (transaction : Transaction) (account : Account)
      (member : transaction ∈ w.db.transactions) :
      Outcome env permit past w (.createWithdrawal accountId amount) (.ret (.posted transaction account))
  | transferred (fromAccountId toAccountId : UUID) (amount : Amount) (idempotencyKey : String)
      (transaction : Transaction) (kept : String) (member : transaction ∈ w.db.transactions)
      (keyed : transaction.idempotencyKey = some kept) (keeps : varchar 255 idempotencyKey = some kept)
      (hashed : transaction.requestHash = some (generateTransferHash env fromAccountId toAccountId amount.value)) :
      Outcome env permit past w (.createTransfer fromAccountId toAccountId amount idempotencyKey)
        (.ret (.transfer transaction))
  | refused (fromAccountId toAccountId : UUID) (amount : Amount) (idempotencyKey : String) (error : PyError)
      (refusal : Refusal env permit fromAccountId toAccountId amount idempotencyKey past w error) :
      Outcome env permit past w (.createTransfer fromAccountId toAccountId amount idempotencyKey) (.raise error)
  | balance (accountId : UUID) (balance : Decimal) :
      Outcome env permit past w (.getBalance accountId) (.ret (.balance balance))
  | balanceAt (accountId : UUID) (timestamp : Timestamp) (w₁ : World) (earlier : List (Stmt × World))
      (summed : past = (.sumEntriesUntil accountId timestamp, w₁) :: earlier) :
      Outcome env permit past w (.getBalanceAt accountId timestamp)
        (.ret (.balance (coalesceSum (w₁.db.amountsUntil accountId timestamp))))
  | raised (request : Request) (error : PyError)
      (other : ∀ fromAccountId toAccountId amount key,
        request ≠ .createTransfer fromAccountId toAccountId amount key) :
      Outcome env permit past w request (.raise error)

/-- What each executed statement guarantees. -/
structure Guar (env : Deployment) (permit : Request → Prop) (p : ℕ) (before : Proc (machine env)) (w : World)
    (after : Proc (machine env)) (w' : World) : Prop where
  valid : Valid w'
  others : ∀ q, q ≠ p → Rely permit q w w'
  commits : w'.db = w.db ∨ ∃ rows, permit before.request ∧ Commits env w.db before.request rows ∧
    w'.db = w.db ++ rows ∧ rows = (w.sessions p).writes
  deletes : ∀ x, ¬w'.db.IsSystemCash x → w'.db.amounts x ≠ w.db.amounts x → Deletes x after.rest
  caches : ∀ key value next, before.rest = .call (.redisSet key value) next →
    ∃ x w₁, key = balanceCacheKey x ∧ value = (coalesceSum (w₁.db.amounts x)).str ∧
      (Stmt.sumEntries x, w₁) ∈ before.past

def contract (env : Deployment) (permit : Request → Prop) : Contract (machine env) where
  inv := Valid
  rely := Rely permit
  guar := Guar env permit
  post _ proc w := Outcome env permit proc.past w proc.request proc.rest

/-- A program that is right to go on with, for a process that knows `v`. -/
def Verified (env : Deployment) (permit : Request → Prop) (p : ℕ) (request : Request) (started : World) (v : View)
    (past : List (Stmt × World)) (prog : Code Value) : Prop :=
  ∀ w, Valid w → v.Holds permit p w → (contract env permit).Safe p request started prog past w

namespace Verified
variable {env : Deployment} {permit : Request → Prop} {p : ℕ} {request : Request} {started : World} {v : View}
  {past : List (Stmt × World)}

theorem ret {value : Value} (outcome : ∀ w, Valid w → v.Holds permit p w →
    Outcome env permit past w request (.ret value)) :
    Verified env permit p request started v past (.ret value) :=
  outcome

theorem raise {error : PyError}
    (outcome : ∀ w, Valid w → v.Holds permit p w → Outcome env permit past w request (.raise error)) :
    Verified env permit p request started v past (.raise error) :=
  outcome

theorem quiet {s : Stmt} {next : s.Result → Code Value} (silent : ∀ key value, s ≠ .redisSet key value)
    (executes : ∀ w, Valid w → v.Holds permit p w → ∀ choice result w',
      exec env p s choice w = some (result, w') →
      ∃ v', Quiet permit p v' w w' ∧ Verified env permit p request started v' ((s, w) :: past) (next result)) :
    Verified env permit p request started v past (.call s next) := by
  intro w valid holds w₁ rely valid₁ choice result w₂ executed
  obtain ⟨v', quiet, verified⟩ := executes w₁ valid₁ (holds.rely rely) choice result w₂ executed
  refine ⟨⟨quiet.valid, quiet.others, .inl quiet.db, fun x _ touched => absurd (by rw [quiet.db]) touched, ?_⟩,
    verified w₂ quiet.valid quiet.holds⟩
  rintro key value next' same
  cases same
  exact absurd rfl (silent key value)

theorem read {s : Stmt} {next : s.Result → Code Value} (value : World → s.Result)
    (silent : ∀ key value, s ≠ .redisSet key value)
    (reads : ∀ w choice, exec env p s choice w = some (value w, w))
    (learns : ∀ w, Valid w → v.Holds permit p w → ∃ v', v'.Holds permit p w ∧
      Verified env permit p request started v' ((s, w) :: past) (next (value w))) :
    Verified env permit p request started v past (.call s next) := by
  refine quiet silent fun w valid holds choice result w' executed => ?_
  rw [reads, Option.some.injEq, Prod.mk.injEq] at executed
  obtain ⟨rfl, rfl⟩ := executed
  obtain ⟨v', holds', verified⟩ := learns w valid holds
  exact ⟨v', .refl valid holds', verified⟩

theorem ite {α : Type} {c : Prop} [Decidable c] {x y : Code α} {next : α → Code Value}
    (yes : c → Verified env permit p request started v past (x >>= next))
    (no : ¬c → Verified env permit p request started v past (y >>= next)) :
    Verified env permit p request started v past ((if c then x else y) >>= next) := by
  split_ifs with h
  · exact yes h
  · exact no h

section Reads
variable (blank : v.writes = {})
include blank

theorem selectAccount {x : UUID} {next : List Account → Code Value}
    (missing : ∀ w, Verified env permit p request started v ((.selectAccount x, w) :: past) (next []))
    (found : ∀ w account, account.accountId = x →
      Verified env permit p request started { v with known := account :: v.known } ((.selectAccount x, w) :: past)
        (next [account])) :
    Verified env permit p request started v past (.call (.selectAccount x) next) := by
  refine read (fun w => (w.visible p).accounts.filter (·.accountId = x)) (by simp) (fun _ _ => rfl)
    fun w valid holds => ?_
  rw [holds.visible blank]
  rcases valid.consistent.account_cases x with ⟨none, _⟩ | ⟨account, member, same, one⟩
  · exact ⟨v, holds, by simpa only [none] using missing w⟩
  · refine ⟨_, holds.know [account] fun _ listed => List.mem_singleton.1 listed ▸ member, ?_⟩
    rw [one]
    exact found w account same

theorem selectSystemCash {next : List Account → Code Value}
    (found : ∀ w rows, (∀ account ∈ rows, account.isSystemCash) →
      Verified env permit p request started { v with known := rows ++ v.known } ((.selectSystemCash, w) :: past)
        (next rows)) :
    Verified env permit p request started v past (.call .selectSystemCash next) := by
  refine read (fun w => (w.visible p).accounts.filter (·.isSystemCash)) (by simp) (fun _ _ => rfl)
    fun w valid holds => ?_
  rw [holds.visible blank]
  exact ⟨_, holds.know _ fun _ listed => (List.mem_filter.1 listed).1, found w _ fun _ listed =>
    (List.mem_filter.1 listed).2⟩

theorem selectTransaction {key : String} {next : List Transaction → Code Value}
    (unused : ∀ w, key ∉ w.db.keys →
      Verified env permit p request started v ((.selectTransaction key, w) :: past) (next []))
    (found : ∀ w transaction, transaction.idempotencyKey = some key →
      Verified env permit p request started { v with found := transaction :: v.found }
        ((.selectTransaction key, w) :: past) (next [transaction])) :
    Verified env permit p request started v past (.call (.selectTransaction key) next) := by
  refine read (fun w => (w.visible p).transactions.filter (·.idempotencyKey = some key)) (by simp) (fun _ _ => rfl)
    fun w valid holds => ?_
  rw [holds.visible blank]
  rcases valid.consistent.key_cases key with ⟨none, free⟩ | ⟨transaction, member, keyed, one⟩
  · exact ⟨v, holds, by simpa only [none] using unused w free⟩
  · refine ⟨{ v with found := transaction :: v.found }, { holds with found := fun other listed => ?_ }, ?_⟩
    · exact (List.mem_cons.1 listed).elim (fun same => same ▸ member) (holds.found other)
    · rw [one]
      exact found w transaction keyed

theorem sumLocked {x : UUID} {next : Decimal → Code Value} (locked : x ∈ v.locked)
    (then_ : ∀ w, Verified env permit p request started { v with funded := (x, w.db.balance x) :: v.funded }
      ((.sumEntries x, w) :: past) (next (coalesceSum (w.db.amounts x)))) :
    Verified env permit p request started v past (.call (.sumEntries x) next) := by
  refine read (fun w => coalesceSum ((w.visible p).amounts x)) (by simp) (fun _ _ => rfl) fun w valid holds => ?_
  rw [holds.visible blank]
  refine ⟨{ v with funded := (x, w.db.balance x) :: v.funded },
    { holds with funded := fun entry listed => ?_ }, then_ w⟩
  rcases List.mem_cons.1 listed with rfl | listed
  · exact ⟨locked, .inr le_rfl⟩
  · exact holds.funded entry listed

theorem sumEntries {x : UUID} {next : Decimal → Code Value}
    (then_ : ∀ w, Verified env permit p request started v ((.sumEntries x, w) :: past)
      (next (coalesceSum (w.db.amounts x)))) :
    Verified env permit p request started v past (.call (.sumEntries x) next) := by
  refine read (fun w => coalesceSum ((w.visible p).amounts x)) (by simp) (fun _ _ => rfl) fun w valid holds => ?_
  rw [holds.visible blank]
  exact ⟨v, holds, then_ w⟩

theorem sumEntriesUntil {x : UUID} {timestamp : Timestamp} {next : Decimal → Code Value}
    (then_ : ∀ w, Verified env permit p request started v ((.sumEntriesUntil x timestamp, w) :: past)
      (next (coalesceSum (w.db.amountsUntil x timestamp)))) :
    Verified env permit p request started v past (.call (.sumEntriesUntil x timestamp) next) := by
  refine read (fun w => coalesceSum ((w.visible p).amountsUntil x timestamp)) (by simp) (fun _ _ => rfl)
    fun w valid holds => ?_
  rw [holds.visible blank]
  exact ⟨v, holds, then_ w⟩

theorem selectAccountsIn {fromAccountId toAccountId : UUID} {next : List Account → Code Value}
    (different : fromAccountId ≠ toAccountId)
    (missing : ∀ w rows x, x = fromAccountId ∨ x = toAccountId → x ∉ w.db.accounts.map (·.accountId) →
      rows.length ≠ 2 → Verified env permit p request started { v with directory := some w.db.accounts }
        ((.selectAccountsIn ([fromAccountId, toAccountId].insertionSort (· ≤ ·)), w) :: past) (next rows))
    (found : ∀ w rows source destination, rows.length = 2 →
      rows.find? (·.accountId = fromAccountId) = some source →
      rows.find? (·.accountId = toAccountId) = some destination → source ∈ rows → destination ∈ rows →
      source.accountId = fromAccountId → destination.accountId = toAccountId →
      Verified env permit p request started { v with known := rows ++ v.known }
        ((.selectAccountsIn ([fromAccountId, toAccountId].insertionSort (· ≤ ·)), w) :: past) (next rows)) :
    Verified env permit p request started v past
      (.call (.selectAccountsIn ([fromAccountId, toAccountId].insertionSort (· ≤ ·))) next) := by
  refine read (fun w => ((w.visible p).accounts.filter (·.accountId ∈
    [fromAccountId, toAccountId].insertionSort (· ≤ ·))).insertionSort (·.accountId ≤ ·.accountId)) (by simp)
    (fun _ _ => rfl) fun w valid holds => ?_
  rw [holds.visible blank]
  have both : ∀ x, x ∈ [fromAccountId, toAccountId].insertionSort (· ≤ ·) ↔ x = fromAccountId ∨
      x = toAccountId :=
    fun x => by rw [List.mem_insertionSort]; simp
  generalize ordered : (w.db.accounts.filter _).insertionSort (·.accountId ≤ ·.accountId) = rows
  have selected : rows.Perm _ := ordered ▸ List.perm_insertionSort _ _
  simp only [both] at selected
  rcases valid.consistent.pair_cases different selected with
    ⟨short, x, party, absent⟩ | ⟨two, source, destination⟩
  · refine ⟨{ v with directory := some w.db.accounts }, { holds with directory := ?_ },
      missing w _ x party absent short⟩
    rintro accounts listed -
    exact Option.some.inj listed
  · obtain ⟨source, member, same, first⟩ := Tables.find_account source
    obtain ⟨destination, member', same', second⟩ := Tables.find_account destination
    refine ⟨_, holds.know _ fun account listed => ?_,
      found w _ source destination two first second member member' same same'⟩
    exact (List.mem_filter.1 (selected.mem_iff.1 listed)).1

theorem refreshTransaction {id : UUID} {next : List Transaction → Code Value} (transaction : Transaction)
    (same : transaction.transactionId = id) (committed : transaction ∈ v.found)
    (then_ : ∀ w, Verified env permit p request started v ((.refreshTransaction id, w) :: past)
      (next [transaction])) :
    Verified env permit p request started v past (.call (.refreshTransaction id) next) := by
  subst same
  refine read (fun w => (w.visible p).transactions.filter (·.transactionId = transaction.transactionId)) (by simp)
    (fun _ _ => rfl) fun w valid holds => ?_
  rw [holds.visible blank, valid.consistent.transaction_filter (holds.found _ committed)]
  exact ⟨v, holds, then_ w⟩

theorem refreshAccount {id : UUID} {next : List Account → Code Value} (account : Account)
    (same : account.accountId = id) (committed : account ∈ v.known)
    (then_ : ∀ w, Verified env permit p request started v ((.refreshAccount id, w) :: past) (next [account])) :
    Verified env permit p request started v past (.call (.refreshAccount id) next) := by
  subst same
  refine read (fun w => (w.visible p).accounts.filter (·.accountId = account.accountId)) (by simp) (fun _ _ => rfl)
    fun w valid holds => ?_
  rw [holds.visible blank, valid.consistent.account_filter (holds.known _ committed)]
  exact ⟨v, holds, then_ w⟩

end Reads

theorem now {next : Timestamp → Code Value}
    (then_ : ∀ w, Verified env permit p request started v ((.now, w) :: past) (next w.clock)) :
    Verified env permit p request started v past (.call .now next) :=
  read _ (by simp) (fun _ _ => rfl) fun w _ holds => ⟨v, holds, then_ w⟩

theorem uuid4 {next : UUID → Code Value}
    (then_ : ∀ w value, Verified env permit p request started { v with ids := value :: v.ids } ((.uuid4, w) :: past)
      (next value)) :
    Verified env permit p request started v past (.call .uuid4 next) := by
  refine quiet (by simp) fun w valid holds choice result w' executed => ?_
  cases choice with
  | proceed => simp [exec] at executed
  | redisDown => simp [exec] at executed
  | uuid value =>
    simp only [exec] at executed
    split_ifs at executed with used
    cases executed
    rw [not_or] at used
    exact ⟨_, .issue valid holds used.1 used.2, then_ w _⟩

theorem lockAccount {x : UUID} {next : Unit → Code Value}
    (then_ : ∀ w, Verified env permit p request started { v with locked := x :: v.locked }
      ((.lockAccount x, w) :: past) (next ())) :
    Verified env permit p request started v past (.call (.lockAccount x) next) := by
  refine quiet (by simp) fun w valid holds choice result w' executed => ?_
  simp only [exec] at executed
  split_ifs at executed with granted
  cases executed
  exact ⟨_, .forUpdate valid holds granted, then_ w⟩

theorem lockAll {rows : List Account} {next : Unit → Code Value}
    (then_ : ∀ past, Verified env permit p request started
      { v with locked := (rows.map (·.accountId)).reverse ++ v.locked } past (next ())) :
    Verified env permit p request started v past (lockAll rows >>= next) := by
  induction rows generalizing v past with
  | nil => exact then_ past
  | cons account rest ih => exact lockAccount fun w => ih fun past => by simpa using then_ past

theorem lockRows {α : Type} {rows : List Account} {next : List Account → Code α} {k : α → Code Value}
    (then_ : ∀ past, Verified env permit p request started
      { v with locked := (rows.map (·.accountId)).reverse ++ v.locked } past (next rows >>= k)) :
    Verified env permit p request started v past ((Ledger.lockAll rows >>= fun _ => .ret rows) >>= next >>= k) := by
  rw [Prog.bind_assoc, Prog.bind_assoc]
  exact lockAll then_

section Writes

theorem insertAccount {account : Account} {next : Except PyError Unit → Code Value}
    (refused : ∀ w, Verified env permit p request started v ((.insertAccount account, w) :: past)
      (next (.error .dataError)))
    (inserted : ∀ w row, account.stored = some row →
      Verified env permit p request started { v with writes := v.writes ++ { accounts := [row] } }
        ((.insertAccount account, w) :: past) (next (.ok ()))) :
    Verified env permit p request started v past (.call (.insertAccount account) next) := by
  refine quiet (by simp) fun w valid holds choice result w' executed => ?_
  simp only [exec] at executed
  split at executed
  · cases executed
    exact ⟨v, .refl valid holds, refused w⟩
  · rename_i row stored
    cases executed
    exact ⟨_, .write valid holds _, inserted w row stored⟩

theorem insertKeyless {transaction : Transaction} {next : Except PyError Unit → Code Value}
    (keyless : transaction.idempotencyKey = none)
    (inserted : ∀ w, Verified env permit p request started
      { v with writes := v.writes ++ { transactions := [transaction] } } ((.insertTransaction transaction, w) :: past)
      (next (.ok ()))) :
    Verified env permit p request started v past (.call (.insertTransaction transaction) next) := by
  refine quiet (by simp) fun w valid holds choice result w' executed => ?_
  simp only [exec, Transaction.stored_keyless keyless, keyless] at executed
  cases executed
  exact ⟨_, .write valid holds _, inserted w⟩

theorem insertKeyed {transaction : Transaction} {key : String} {next : Except PyError Unit → Code Value}
    (blank : v.writes = {}) (keyed : transaction.idempotencyKey = some key)
    (refused : ∀ w, varchar 255 key = none →
      Verified env permit p request started v ((.insertTransaction transaction, w) :: past)
        (next (.error .dataError)))
    (taken : ∀ w, Verified env permit p request started v ((.insertTransaction transaction, w) :: past)
      (next (.error .integrityError)))
    (inserted : ∀ w kept, varchar 255 key = some kept → Verified env permit p request started
      { v with
        writes := { transactions := [{ transaction with idempotencyKey := some kept }] }
        keys := kept :: v.keys }
      ((.insertTransaction transaction, w) :: past) (next (.ok ()))) :
    Verified env permit p request started v past (.call (.insertTransaction transaction) next) := by
  refine quiet (by simp) fun w valid holds choice result w' executed => ?_
  cases stores : varchar 255 key with
  | none =>
    simp only [exec, Transaction.stored_keyed keyed, stores, Option.map_none] at executed
    cases executed
    exact ⟨v, .refl valid holds, refused w stores⟩
  | some kept =>
    simp only [exec, Transaction.stored_keyed keyed, stores, Option.map_some, holds.visible blank] at executed
    split_ifs at executed with used
    · cases executed
      exact ⟨v, .refl valid holds, taken w⟩
    · split at executed
      · cases executed
      · rename_i free
        cases executed
        have written := Quiet.write valid holds { transactions := [{ transaction with idempotencyKey := some kept }] }
        rw [blank, Tables.empty_append] at written
        have unused : kept ∉ w.db.keys := by simpa [Tables.keys] using used
        have held := Quiet.holdKey written.valid written.holds kept free unused (by simp [Tables.keys])
        exact ⟨_, .trans written held, inserted w kept stores⟩

theorem insertEntry {transactionId accountId : UUID} {amount : Decimal} {next : Except PyError Unit → Code Value}
    (unstorable : ∀ w, Numeric.cast 20 2 amount = none →
      Verified env permit p request started v ((.insertEntry transactionId accountId amount, w) :: past)
        (next (.error .dataError)))
    (zero : ∀ w stored, Numeric.cast 20 2 amount = some stored → env.amountNonzero → stored.unscaled = 0 →
      Verified env permit p request started v ((.insertEntry transactionId accountId amount, w) :: past)
        (next (.error .integrityError)))
    (inserted : ∀ w stored, Numeric.cast 20 2 amount = some stored →
      (env.amountNonzero → stored.unscaled ≠ 0) → Verified env permit p request started
        { v with writes := v.writes ++ { entries := [⟨transactionId, accountId, stored⟩] } }
        ((.insertEntry transactionId accountId amount, w) :: past) (next (.ok ()))) :
    Verified env permit p request started v past (.call (.insertEntry transactionId accountId amount) next) := by
  refine quiet (by simp) fun w valid holds choice result w' executed => ?_
  simp only [exec] at executed
  split at executed
  · rename_i refused
    cases executed
    exact ⟨v, .refl valid holds, unstorable w refused⟩
  · rename_i stored kept
    have written := Quiet.write valid holds { entries := [⟨transactionId, accountId, stored⟩] }
    split_ifs at executed with empty locks granted
    · cases executed
      exact ⟨v, .refl valid holds, zero w stored kept empty.1 empty.2⟩
    · cases executed
      have shared := Quiet.keyShare written.valid written.holds accountId
      exact ⟨_, .trans written shared, inserted w stored kept fun on off => empty ⟨on, off⟩⟩
    · cases executed
      exact ⟨_, written, inserted w stored kept fun on off => empty ⟨on, off⟩⟩

theorem insertEvent {event : OutboxEvent} {next : Unit → Code Value}
    (then_ : ∀ w, Verified env permit p request started { v with writes := v.writes ++ { events := [event] } }
      ((.insertEvent event, w) :: past) (next ())) :
    Verified env permit p request started v past (.call (.insertEvent event) next) := by
  refine quiet (by simp) fun w valid holds choice result w' executed => ?_
  simp only [exec] at executed
  cases executed
  exact ⟨_, .write valid holds _, then_ w⟩

theorem savepoint {next : Unit → Code Value}
    (then_ : ∀ w, Verified env permit p request started { v with saved := some v.writes } ((.savepoint, w) :: past)
      (next ())) :
    Verified env permit p request started v past (.call .savepoint next) := by
  refine quiet (by simp) fun w valid holds choice result w' executed => ?_
  simp only [exec, holds.session] at executed
  cases executed
  exact ⟨_, .setSession valid holds _ _ fun _ => id, then_ w⟩

theorem releaseSavepoint {next : Unit → Code Value}
    (then_ : ∀ w, Verified env permit p request started { v with saved := none } ((.releaseSavepoint, w) :: past)
      (next ())) :
    Verified env permit p request started v past (.call .releaseSavepoint next) := by
  refine quiet (by simp) fun w valid holds choice result w' executed => ?_
  simp only [exec, holds.session] at executed
  cases executed
  exact ⟨_, .setSession valid holds _ _ fun _ => id, then_ w⟩

theorem rollbackToSavepoint {next : Unit → Code Value}
    (then_ : ∀ w, Verified env permit p request started
      { v with writes := v.saved.getD {}, saved := none, keys := [] } ((.rollbackToSavepoint, w) :: past) (next ())) :
    Verified env permit p request started v past (.call .rollbackToSavepoint next) := by
  refine quiet (by simp) fun w valid holds choice result w' executed => ?_
  simp only [exec] at executed
  cases executed
  exact ⟨_, .rollbackToSavepoint valid holds, then_ w⟩

theorem rollback {next : Unit → Code Value}
    (then_ : ∀ w, Verified env permit p request started
      { known := v.known, directory := v.directory, found := v.found } ((.rollback, w) :: past) (next ())) :
    Verified env permit p request started v past (.call .rollback next) := by
  refine quiet (by simp) fun w valid holds choice result w' executed => ?_
  simp only [exec] at executed
  cases executed
  exact ⟨_, .finish valid holds, then_ w⟩

theorem commit {next : Unit → Code Value} (admitted : permit request)
    (commits : ∀ w, Valid w → v.Holds permit p w → Commits env w.db request v.writes)
    (ready : ∀ w, v.Holds permit p w → v.Ready w.db)
    (deletes : ∀ w, v.Holds permit p w → ∀ x, w.db.IsSystemCash x ∨ v.writes.amounts x = [] ∨
      Deletes x (next ()))
    (then_ : ∀ w, Verified env permit p request started
      { known := v.known ++ v.writes.accounts, found := v.found ++ v.writes.transactions } ((.commit, w) :: past)
      (next ())) :
    Verified env permit p request started v past (.call .commit next) := by
  intro w valid holds w₁ rely valid₁ choice result w₂ executed
  have holds₁ := holds.rely rely
  have respects := Respects.commit valid₁ holds₁ admitted (ready w₁ holds₁) (commits w₁ valid₁ holds₁)
  have grown : (w₁.commit p).db = w₁.db ++ v.writes := by simp [World.commit, World.finish, holds₁.session]
  change some ((), w₁.commit p) = some (result, w₂) at executed
  cases executed
  refine ⟨⟨respects.valid, respects.others,
    .inr ⟨v.writes, admitted, commits w₁ valid₁ holds₁, grown, by rw [holds₁.session]⟩,
      fun x other touched => ?_, fun key value next' same => by cases same⟩,
      then_ w₁ _ respects.valid respects.holds⟩
  rw [grown] at other touched
  rcases deletes w₁ holds₁ x with cash | untouched | deletes
  · exact absurd cash.append other
  · exact absurd (by simp [untouched]) touched
  · exact deletes

theorem commitPosting {next : Unit → Code Value} (P : Posting) (rows : v.writes = P.rows)
    (admitted : permit request) (posted : ∀ w, Valid w → v.Holds permit p w → PostedBy env w.db request P)
    (issued : P.transaction.transactionId ∈ v.ids) (issued' : P.event.eventId ∈ v.ids)
    (key : ∀ key, P.transaction.idempotencyKey = some key → key ∈ v.keys)
    (payer : (∀ w, v.Holds permit p w → w.db.IsSystemCash P.payer) ∨ P.payer ∈ v.locked ∧
      Deletes P.payer (next ()))
    (payee : (∀ w, v.Holds permit p w → w.db.IsSystemCash P.payee) ∨ Deletes P.payee (next ()))
    (credit : 0 ≤ P.credit.unscaled)
    (then_ : ∀ w, Verified env permit p request started { known := v.known, found := v.found ++ [P.transaction] }
      ((.commit, w) :: past) (next ())) :
    Verified env permit p request started v past (.call .commit next) := by
  refine commit admitted (fun w valid holds => ?_) (fun w holds => ⟨fun id member => ?_, fun other member => ?_,
    fun x debited => ?_⟩) (fun w holds x => ?_) (fun w => ?_)
  · rw [rows]
    refine .posts P (posted w valid holds) (holds.ids _ issued).2 (holds.ids _ issued').2 fun other keyed => ?_
    exact valid.keyHeld (holds.keys other (key other keyed))
  · rw [rows] at member
    simp only [Tables.ids, Posting.rows, List.map_nil, List.map_cons, List.nil_append, List.mem_append,
      List.mem_singleton] at member
    rcases member with rfl | rfl
    · exact issued
    · exact issued'
  · rw [rows] at member
    exact key other (by simpa [Tables.keys, Posting.rows] using member)
  · rw [rows, Posting.balance_rows] at debited
    have same : P.payer = x := by
      by_contra other
      rw [if_neg other] at debited
      split_ifs at debited <;> omega
    subst same
    exact payer.imp (fun cash => cash w holds) And.left
  · rw [rows]
    by_cases pays : P.payer = x
    · subst pays
      exact payer.imp (fun cash => cash w holds) fun locked => .inr locked.2
    · by_cases receives : P.payee = x
      · subst receives
        exact payee.imp (fun cash => cash w holds) .inr
      · exact .inr (.inl (by simp [Tables.amounts, Posting.rows, pays, receives]))
  · simpa [rows, Posting.rows] using then_ w

end Writes

section Cache

theorem redisGet {key : String} {next : Except PyError (Option String) → Code Value}
    (then_ : ∀ w result, Verified env permit p request started v ((.redisGet key, w) :: past) (next result)) :
    Verified env permit p request started v past (.call (.redisGet key) next) := by
  refine quiet (by simp) fun w valid holds choice result w' executed => ?_
  cases choice <;>
  · simp only [exec] at executed
    cases executed
    exact ⟨v, .refl valid holds, then_ w _⟩

theorem redisDelete {key : String} {next : Except PyError Unit → Code Value}
    (then_ : ∀ w result, Verified env permit p request started v ((.redisDelete key, w) :: past) (next result)) :
    Verified env permit p request started v past (.call (.redisDelete key) next) := by
  refine quiet (by simp) fun w valid holds choice result w' executed => ?_
  cases choice <;> simp only [exec] at executed <;> cases executed
  · exact ⟨v, .redis valid holds _, then_ w _⟩
  · exact ⟨v, .redis valid holds _, then_ w _⟩
  · exact ⟨v, .refl valid holds, then_ w _⟩

theorem redisSet {x : UUID} {w₀ : World} {next : Except PyError Unit → Code Value}
    (summed : (Stmt.sumEntries x, w₀) ∈ past)
    (then_ : ∀ w result, Verified env permit p request started v
      ((.redisSet (balanceCacheKey x) (coalesceSum (w₀.db.amounts x)).str, w) :: past) (next result)) :
    Verified env permit p request started v past
      (.call (.redisSet (balanceCacheKey x) (coalesceSum (w₀.db.amounts x)).str) next) := by
  intro w valid holds w₁ rely valid₁ choice result w₂ executed
  have holds₁ := holds.rely rely
  have kept : Quiet permit p v w₁ w₂ := by
    cases choice <;> simp only [exec, machine] at executed <;> cases executed
    · exact .redis valid₁ holds₁ _
    · exact .redis valid₁ holds₁ _
    · exact .refl valid₁ holds₁
  refine ⟨⟨kept.valid, kept.others, .inl kept.db, fun x _ touched => absurd (by rw [kept.db]) touched, ?_⟩,
    then_ w₁ result w₂ kept.valid kept.holds⟩
  rintro key value next' same
  cases same
  exact ⟨x, w₀, rfl, rfl, summed⟩

end Cache
end Verified
end LedgerFlow.Ledger
