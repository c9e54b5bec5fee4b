import LedgerFlow.Ledger.Contract

/-! Every call of the service keeps the contract. -/

namespace LedgerFlow.Ledger
open Accounts Outbox Concurrency World

theorem toRat_le_of_not_lt {t : Tables} {x : UUID} {amount : Decimal}
    (enough : ¬coalesceSum (t.amounts x) < amount) : amount.toRat ≤ t.balance x / 100 := by
  rw [← Tables.total_toRat]
  exact not_lt.1 enough

namespace Verified
variable {env : Deployment} {permit : Request → Prop} {p : ℕ} {started : World}

theorem getBalanceAt (x : UUID) (timestamp : Timestamp) :
    Verified env permit p (.getBalanceAt x timestamp) started {} [] (body env (.getBalanceAt x timestamp)) := by
  refine selectAccount rfl (fun w => raise fun _ _ _ => .raised _ _ (by simp)) fun w account same => ?_
  refine sumEntriesUntil rfl fun w₁ => ?_
  simp only [decimalOf_eq]
  exact ret fun _ _ _ => .balanceAt _ _ _ _ rfl

theorem getBalance (x : UUID) :
    Verified env permit p (.getBalance x) started {} [] (body env (.getBalance x)) := by
  have refused : ∀ {v past} error, Verified env permit p (.getBalance x) started v past (.raise error) :=
    fun error => raise fun _ _ _ => .raised _ _ (by simp)
  have answer : ∀ {v past} d, Verified env permit p (.getBalance x) started v past (.ret (.balance d)) :=
    fun d => ret fun _ _ _ => .balance _ _
  have computed : ∀ {past}, Verified env permit p (.getBalance x) started {} past
      (computeBalance x >>= fun balance => .ret (.balance balance)) := by
    intro past
    refine selectAccount rfl (fun w => refused _) fun w account same => ?_
    refine sumEntries rfl fun w₁ => ?_
    simp only [decimalOf_eq]
    refine redisSet List.mem_cons_self fun w₂ result => ?_
    cases result <;> exact answer _
  refine redisGet fun w result => ?_
  rcases result with error | _ | value
  · exact computed
  · exact computed
  · rcases read : Decimal.ofStr value with _ | (d | negative | _) <;> simp only [read]
    · exact computed
    · exact answer d
    · exact computed
    · exact computed

theorem createAccount (created : CreateAccountRequest) (admitted : permit (.createAccount created)) :
    Verified env permit p (.createAccount created) started {} [] (body env (.createAccount created)) := by
  have refused : ∀ {v past} error, Verified env permit p (.createAccount created) started v past (.raise error) :=
    fun error => raise fun _ _ _ => .raised _ _ (by simp)
  simp only [body, Ledger.createAccount]
  cases typed : AccountType.ofStr created.accountType with
  | none => exact refused _
  | some accountType =>
    refine uuid4 fun w accountId => insertAccount (fun w₁ => refused _) fun w₁ row stored => ?_
    obtain ⟨owner, currency, stores, stores', rfl⟩ := Account.stored_cases stored
    refine commit admitted (fun w₂ valid holds => ?_) (fun w₂ holds => ⟨?_, ?_, ?_⟩)
      (fun w₂ holds x => .inr (.inl rfl)) fun w₂ => ?_
    · exact .opens created _ rfl (varchar_eq_self created.ownerNameLength.2 stores) typed stores' rfl
        (holds.ids accountId (by simp)).2
    · simp [Tables.ids]
    · simp [Tables.keys]
    · simp [Tables.balance, Tables.amounts]
    · refine refreshAccount rfl ⟨accountId, owner, accountType, currency, .active⟩ rfl (by simp) fun w₃ => ?_
      exact ret fun w₄ valid holds => .created _ _ (holds.known _ (by simp))

theorem createDeposit (x : UUID) (amount : Amount) (admitted : permit (.createDeposit x amount)) :
    Verified env permit p (.createDeposit x amount) started {} [] (body env (.createDeposit x amount)) := by
  have refused : ∀ {v past} error, Verified env permit p (.createDeposit x amount) started v past (.raise error) :=
    fun error => raise fun _ _ _ => .raised _ _ (by simp)
  refine selectAccount rfl (fun w => refused _) fun w account same => ite (fun _ => refused _) fun active => ?_
  subst same
  refine selectSystemCash rfl fun w₁ rows cash => ?_
  rcases rows with _ | ⟨system, _ | ⟨other, rest⟩⟩
  · exact refused _
  · refine uuid4 fun w₂ transactionId => now fun w₃ => insertKeyless rfl fun w₄ => ?_
    cases negated : amount.value.neg with
    | none => exact refused _
    | some debit =>
      refine insertEntry (fun _ _ => refused _) (fun _ _ _ _ _ => refused _) fun w₅ debited kept nonzero => ?_
      refine insertEntry (fun _ _ => refused _) (fun _ _ _ _ _ => refused _) fun w₆ credited kept' nonzero' => ?_
      refine uuid4 fun w₇ eventId => now fun w₈ => insertEvent fun w₉ => ?_
      have stored : Stores env amount.value debited credited :=
        ⟨⟨debit, negated, kept⟩, kept', fun on => ⟨nonzero on, nonzero' on⟩⟩
      refine commitPosting ⟨_, system.accountId, account.accountId, debited, credited, _⟩ rfl admitted
        (fun w valid holds => .deposit account system amount _ debited credited eventId w₈.clock
          (holds.known _ (by simp)) (not_not.1 active) (holds.known _ (by simp)) (cash _ (by simp)) rfl rfl stored)
        (by simp) (by simp) (by simp) (.inl fun w holds =>
          ⟨system, holds.known _ (by simp), rfl, cash _ (by simp)⟩)
        (.inr (.inr fun _ _ => .inl rfl)) (Numeric.cast_pos_nonneg amount.sign kept') fun w₁₀ => ?_
      refine refreshTransaction rfl _ rfl (List.mem_append_right _ List.mem_cons_self) fun w₁₁ =>
        redisDelete fun w₁₂ result => ?_
      cases result <;> exact ret fun w valid holds => .deposited _ _ _ _ (holds.found _ (by simp))
  · exact refused _

theorem createWithdrawal (x : UUID) (amount : Amount) (admitted : permit (.createWithdrawal x amount)) :
    Verified env permit p (.createWithdrawal x amount) started {} [] (body env (.createWithdrawal x amount)) := by
  have refused : ∀ {v past} error, Verified env permit p (.createWithdrawal x amount) started v past
      (.raise error) :=
    fun error => raise fun _ _ _ => .raised _ _ (by simp)
  refine selectAccount rfl (fun w => refused _) fun w account same => ?_
  refine lockAccount fun w₁ => ite (fun _ => refused _) fun active => ?_
  subst same
  refine sumLocked rfl (by simp) fun w₂ => ?_
  simp only [decimalOf_eq]
  refine ite (fun _ => refused _) fun enough => ?_
  refine selectSystemCash rfl fun w₃ rows cash => ?_
  rcases rows with _ | ⟨system, _ | ⟨other, rest⟩⟩
  · exact refused _
  · refine uuid4 fun w₄ transactionId => now fun w₅ => insertKeyless rfl fun w₆ => ?_
    cases negated : amount.value.neg with
    | none => exact refused _
    | some debit =>
      refine insertEntry (fun _ _ => refused _) (fun _ _ _ _ _ => refused _) fun w₇ debited kept nonzero => ?_
      refine insertEntry (fun _ _ => refused _) (fun _ _ _ _ _ => refused _) fun w₈ credited kept' nonzero' => ?_
      refine uuid4 fun w₉ eventId => now fun w₁₀ => insertEvent fun w₁₁ => ?_
      have stored : Stores env amount.value debited credited :=
        ⟨⟨debit, negated, kept⟩, kept', fun on => ⟨nonzero on, nonzero' on⟩⟩
      refine commitPosting ⟨_, account.accountId, system.accountId, debited, credited, _⟩ rfl admitted
        (fun w valid holds => .withdrawal account system amount _ debited credited eventId w₁₀.clock _
          (holds.known _ (by simp)) (not_not.1 active) (holds.known _ (by simp)) (cash _ (by simp)) rfl rfl stored
          (holds.funded _ (by simp; rfl)).2 (toRat_le_of_not_lt enough))
        (by simp) (by simp) (by simp) (.inr ⟨by simp, .inr fun _ _ => .inl rfl⟩)
        (.inl fun w holds => ⟨system, holds.known _ (by simp), rfl, cash _ (by simp)⟩)
        (Numeric.cast_pos_nonneg amount.sign kept') fun w₁₂ => ?_
      refine refreshTransaction rfl _ rfl (List.mem_append_right _ List.mem_cons_self) fun w₁₃ =>
        redisDelete fun w₁₄ result => ?_
      cases result <;> exact ret fun w valid holds => .withdrawn _ _ _ _ (holds.found _ (by simp))
  · exact refused _

theorem createTransfer (a b : UUID) (amount : Amount) (key : String)
    (admitted : permit (.createTransfer a b amount key)) :
    Verified env permit p (.createTransfer a b amount key) started {} []
    (body env (.createTransfer a b amount key)) := by
  have refused : ∀ {v past} error, (∀ w, v.Holds permit p w →
      Refusal env permit a b amount key past w error) →
      Verified env permit p (.createTransfer a b amount key) started v past (.raise error) :=
    fun error refusal => raise fun w _ holds => .refused _ _ _ _ _ (refusal w holds)
  have returned : ∀ {v past} transaction kept, transaction ∈ v.found →
      transaction.idempotencyKey = some kept →
      kept = key ∨ varchar 255 key = some kept →
        transaction.requestHash = some (generateTransferHash env a b amount.value) →
      Verified env permit p (.createTransfer a b amount key) started v past (.ret (.transfer transaction)) := by
    intro v past transaction kept member keyed own hashed
    refine ret fun w valid holds => .transferred _ _ _ _ _ kept (holds.found _ member) keyed ?_ hashed
    rcases own with rfl | cut
    · exact valid.consistent.fits _ (List.mem_filterMap.2 ⟨_, holds.found _ member, keyed⟩)
    · exact cut
  have replayed : ∀ {v past} existing, existing ∈ v.found → existing.idempotencyKey = some key →
      Verified env permit p (.createTransfer a b amount key) started v past
        (replay (generateTransferHash env a b amount.value) existing >>= fun t => .ret (.transfer t)) := by
    intro v past existing member keyed
    refine ite (fun other => refused _ fun w holds => .otherRequest existing (holds.found _ member) keyed other)
      fun same => ?_
    exact returned existing key member keyed (.inl rfl) (not_not.1 same)
  have recovered : ∀ {v past}, Verified env permit p (.createTransfer a b amount key) started v past
      (recoverTransfer key (generateTransferHash env a b amount.value) .integrityError >>=
        fun t => .ret (.transfer t)) := by
    intro v past
    refine rollback fun w => selectTransaction rfl (fun w₁ free => ?_) fun w₁ existing keyed => ?_
    · exact refused _ fun _ _ => .unused w₁ _ rfl free
    · exact replayed existing (by simp) keyed
  refine selectTransaction rfl (fun w free => ?_) fun w existing keyed => replayed existing (by simp) keyed
  refine ite (fun same => refused _ fun _ _ => .sameAccount same) fun different => ?_
  refine selectAccountsIn rfl different (fun w₁ rows x party absent short => ?_)
    fun w₁ rows source destination two first second member member' same same' => ?_
  · refine lockRows fun past => ite (fun _ => refused _ fun w holds => ?_) fun two => absurd (not_not.1 two) short
    exact .missing x party fun static => holds.directory _ rfl static ▸ absent
  refine lockRows fun past => ite (fun short => absurd two short) fun _ => ?_
  simp only [first, second]
  refine ite (fun inactive => refused _ fun w holds => ?_) fun active => ?_
  · exact .sourceInactive source (holds.known _ (by simp [member])) same inactive
  refine ite (fun inactive => refused _ fun w holds => ?_) fun active' => ?_
  · exact .destinationInactive destination (holds.known _ (by simp [member'])) same' inactive
  refine ite (fun mismatch => refused _ fun w holds => ?_) fun currencies => ?_
  · exact .currencyMismatch source destination (holds.known _ (by simp [member]))
      (holds.known _ (by simp [member'])) same same' mismatch
  have locked : source.accountId ∈ rows.map (·.accountId) := List.mem_map_of_mem member
  subst same same'
  refine sumLocked rfl (by simpa using ⟨source, member, rfl⟩) fun w₂ => ?_
  simp only [decimalOf_eq]
  refine ite (fun short => refused _ fun w holds => .insufficientFunds w₂ _ rfl short) fun enough => ?_
  refine savepoint fun w₃ => uuid4 fun w₄ transactionId => now fun w₅ => ?_
  refine insertKeyed rfl rfl (fun w₆ unfit => ?_) (fun w₆ => ?_) fun w₆ kept stores => ?_
  · exact rollbackToSavepoint fun w₇ => refused _ fun _ _ => .keyRefused unfit
  · exact rollbackToSavepoint fun w₇ => recovered
  cases negated : amount.value.neg with
  | none => exact rollbackToSavepoint fun w₇ => refused _ fun _ _ => .overflow negated
  | some debit =>
    refine insertEntry (fun w₇ large => ?_) (fun _ _ _ _ _ => rollbackToSavepoint fun _ => recovered)
      fun w₇ debited cents nonzero => ?_
    · refine rollbackToSavepoint fun w₈ => refused _ fun _ _ => .unstorable fun debited credited stored => ?_
      obtain ⟨debit', negated', keeps⟩ := stored.debited
      rw [negated, Option.some.injEq] at negated'
      simp [← negated', large] at keeps
    refine insertEntry (fun w₈ large => ?_) (fun _ _ _ _ _ => rollbackToSavepoint fun _ => recovered)
      fun w₈ credited cents' nonzero' => ?_
    · refine rollbackToSavepoint fun w₉ => refused _ fun _ _ => .unstorable fun debited credited stored => ?_
      simpa [large] using stored.credited
    refine uuid4 fun w₉ eventId => now fun w₁₀ => insertEvent fun w₁₁ => releaseSavepoint fun w₁₂ => ?_
    have stored : Stores env amount.value debited credited :=
      ⟨⟨debit, negated, cents⟩, cents', fun on => ⟨nonzero on, nonzero' on⟩⟩
    refine commitPosting ⟨_, source.accountId, destination.accountId, debited, credited, _⟩ rfl admitted
      (fun w valid holds => .transfer source destination amount key _ debited credited eventId w₁₀.clock _
        (holds.known _ (by simp [member])) (holds.known _ (by simp [member'])) different (not_not.1 active)
        (not_not.1 active') (not_not.1 currencies) (stores ▸ rfl) rfl stores.symm rfl stored
        (holds.funded _ (by simp; rfl)).2 (toRat_le_of_not_lt enough))
      (by simp) (by simp) (by simp) (.inr ⟨by simpa using ⟨source, member, rfl⟩, .inr fun _ _ => .inl rfl⟩)
      (.inr (.inr fun _ _ => .inr fun result ok => ?_)) (Numeric.cast_pos_nonneg amount.sign cents') fun w₁₃ => ?_
    · cases result with
      | error error => cases ok
      | ok _ => exact .inl rfl
    refine refreshTransaction rfl ⟨transactionId, .transfer, .posted, some "Transfer", some kept,
      some (generateTransferHash
      env source.accountId destination.accountId amount.value), w₅.clock⟩ rfl (by simp) fun w₁₄ =>
        redisDelete fun w₁₅ result => ?_
    cases result with
    | error error => exact returned _ kept (by simp) rfl (.inr stores) rfl
    | ok _ =>
      refine redisDelete fun w₁₆ result => ?_
      cases result <;> exact returned _ kept (by simp) rfl (.inr stores) rfl

end Verified
end LedgerFlow.Ledger
