import LedgerFlow.Common.Values

/-! Accounts and the request that creates one. -/

namespace LedgerFlow.Accounts

inductive AccountType where
  | savings
  | current
  | system
  deriving DecidableEq, Repr

/-- `AccountType(value)`, nothing where it raises `ValueError`. -/
def AccountType.ofStr (value : String) : Option AccountType :=
  if value = "SAVINGS" then some .savings
  else if value = "CURRENT" then some .current
  else if value = "SYSTEM" then some .system
  else none

inductive AccountStatus where
  | active
  | frozen
  | closed
  deriving DecidableEq, Repr

structure Account where
  accountId : UUID
  ownerName : String
  accountType : AccountType
  currency : String
  status : AccountStatus
  deriving DecidableEq, Repr

/-- The row as its columns keep it, nothing where one of them refuses its value. -/
def Account.stored (account : Account) : Option Account := do
  let ownerName ← varchar 100 account.ownerName
  let currency ← varchar 3 account.currency
  return { account with ownerName, currency }

theorem Account.stored_cases {account row : Account} (stored : account.stored = some row) :
    ∃ ownerName currency, varchar 100 account.ownerName = some ownerName ∧
      varchar 3 account.currency = some currency ∧ row = { account with ownerName, currency } := by
  simp only [Account.stored, Option.bind_eq_bind, Option.bind_eq_some_iff, Option.pure_def,
    Option.some.injEq] at stored
  obtain ⟨ownerName, owner, currency, text, same⟩ := stored
  exact ⟨ownerName, currency, owner, text, same.symm⟩

theorem Account.refused_cases {account : Account} (refused : account.stored = none) :
    varchar 100 account.ownerName = none ∨ varchar 3 account.currency = none := by
  cases owner : varchar 100 account.ownerName with
  | none => exact .inl rfl
  | some ownerName =>
    cases currency : varchar 3 account.currency with
    | none => exact .inr rfl
    | some currency => simp [Account.stored, owner, currency] at refused

structure CreateAccountRequest where
  ownerName : String
  accountType : String
  currency : String
  ownerNameLength : 1 ≤ ownerName.length ∧ ownerName.length ≤ 100
  currencyLength : currency.length = 3
  deriving DecidableEq

def Account.isSystemCash (account : Account) : Bool :=
  account.accountType = .system && account.ownerName = "SYSTEM_CASH"

end LedgerFlow.Accounts
