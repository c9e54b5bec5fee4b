import LedgerFlow.Ledger.Idempotency

/-! The request hash of a transfer: it takes the amount as it is written, not the number. -/

namespace LedgerFlow.Ledger
open Accounts Outbox Concurrency

variable {env : Deployment}

def IdentifiesRequest (env : Deployment) (a b : UUID) (amount : Amount) (a' b' : UUID) (amount' : Amount) : Prop :=
  generateTransferHash env a b amount.value = generateTransferHash env a' b' amount'.value ↔
    a = a' ∧ b = b' ∧ amount.value.toRat = amount'.value.toRat

/-- One number with different numbers of decimals, or with an exponent. -/
def Amount.Rewrites (amount amount' : Amount) : Prop :=
  amount.value.toRat = amount'.value.toRat ∧ amount.value.exp ≠ amount'.value.exp

theorem Amount.eq_of_toRat {amount amount' : Amount} (number : amount.value.toRat = amount'.value.toRat)
    (written : ¬amount.Rewrites amount') : amount.value = amount'.value := by
  apply Decimal.eq_of_toRat amount.sign amount'.sign number
  by_contra exponent
  exact written ⟨number, exponent⟩

/-- The hash identifies the request, unless one request rewrites the amount of the other. -/
theorem hash_identifies_request (injective : Function.Injective env.sha256) (a b : UUID)
    (amount : Amount) (a' b' : UUID) (amount' : Amount) :
    IdentifiesRequest env a b amount a' b' amount' ↔ ¬(a = a' ∧ b = b' ∧ amount.Rewrites amount') := by
  unfold IdentifiesRequest
  constructor
  · intro identifies rewritten
    obtain ⟨payer, payee, number, exponent⟩ := rewritten
    have hashes := identifies.2 ⟨payer, payee, number⟩
    have written := (generateTransferHash_injective injective hashes).2.2
    exact exponent (congrArg Decimal.exp written)
  · intro written
    constructor
    · intro hashes
      obtain ⟨payer, payee, same⟩ := generateTransferHash_injective injective hashes
      exact ⟨payer, payee, congrArg Decimal.toRat same⟩
    · intro request
      obtain ⟨rfl, rfl, number⟩ := request
      have same : amount.value = amount'.value := by
        apply Amount.eq_of_toRat number
        intro rewritten
        exact written ⟨rfl, rfl, rewritten⟩
      rw [same]

theorem replay_rewritten (injective : Function.Injective env.sha256) {a b : UUID} {amount amount' : Amount}
    {existing : Transaction} (hashed : existing.requestHash = some (generateTransferHash env a b amount.value))
    (rewritten : amount.Rewrites amount') : replay (generateTransferHash env a b amount'.value) existing =
      .raise (.valueError "Idempotency key already used for a different request") := by
  unfold replay
  rw [if_pos]
  rw [hashed]
  intro same
  have written := (generateTransferHash_injective injective (Option.some.inj same)).2.2
  exact rewritten.2 (congrArg Decimal.exp written)

theorem hash_identifies_request_sample : IdentifiesRequest sample 2 3 hundred 2 3 oneRupee := by
  apply (hash_identifies_request sampleDigest_injective 2 3 hundred 2 3 oneRupee).2
  intro rewritten
  have number := rewritten.2.2.1
  norm_num [hundred, oneRupee, Decimal.toRat, Decimal.magnitude] at number

def wholeHundred : Amount := ⟨⟨false, 100, 0⟩, rfl, by decide⟩

theorem hundred_rewrites : hundred.Rewrites wholeHundred := by
  constructor
  · norm_num [hundred, wholeHundred, Decimal.toRat, Decimal.magnitude]
  · decide

/-- The text `100` hashes differently from `100.00`. -/
theorem not_hash_identifies_request : ¬∀ env : Deployment, Function.Injective env.sha256 →
    ∀ a b amount a' b' amount', IdentifiesRequest env a b amount a' b' amount' := by
  intro identifies
  have hashes := (identifies sample sampleDigest_injective 2 3 hundred 2 3 wholeHundred).2
      ⟨rfl, rfl, hundred_rewrites.1⟩
  have written := (generateTransferHash_injective sampleDigest_injective hashes).2.2
  exact hundred_rewrites.2 (congrArg Decimal.exp written)

end LedgerFlow.Ledger
