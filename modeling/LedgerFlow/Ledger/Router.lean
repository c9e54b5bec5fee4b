import LedgerFlow.Ledger.Runs

/-! The routes: what they answer with when a call has returned, and the HTTP errors they make of its exceptions. -/

namespace LedgerFlow

def Accounts.AccountType.value : Accounts.AccountType → String
  | .savings => "SAVINGS"
  | .current => "CURRENT"
  | .system => "SYSTEM"

def Accounts.AccountStatus.value : Accounts.AccountStatus → String
  | .active => "ACTIVE"
  | .frozen => "FROZEN"
  | .closed => "CLOSED"

namespace Ledger
open Accounts Outbox Concurrency World

def TransactionStatus.value : TransactionStatus → String
  | .pending => "PENDING"
  | .posted => "POSTED"
  | .failed => "FAILED"

inductive Response where
  | account (accountId : UUID) (ownerName accountType currency status : String)
  | deposit (transactionId accountId : UUID) (amount : Decimal) (status : String)
  | withdrawal (transactionId accountId : UUID) (amount : Decimal) (status : String)
  | transfer (transactionId fromAccountId toAccountId : UUID) (amount : Decimal) (status : String)
  | balance (accountId : UUID) (balance : Decimal) (currency : String)
  | balanceAt (accountId : UUID) (balance : Decimal) (timestamp : Timestamp)
  deriving DecidableEq

/-- `HTTPException(status_code, detail)`, or an exception that no route handles. -/
inductive HttpError where
  | httpException (statusCode : ℕ) (detail : String)
  | unhandled (error : PyError)
  deriving DecidableEq

/-- The answer of the route to a call that has returned, for each call the values it returns. -/
def respond : Request → Value → Option Response
  | .createAccount _, .account account => some
    (.account account.accountId account.ownerName account.accountType.value account.currency account.status.value)
  | .createDeposit _ amount, .posted transaction account => some
    (.deposit transaction.transactionId account.accountId amount.value transaction.status.value)
  | .createWithdrawal _ amount, .posted transaction account => some
    (.withdrawal transaction.transactionId account.accountId amount.value transaction.status.value)
  | .createTransfer fromAccountId toAccountId amount _, .transfer transaction => some
    (.transfer transaction.transactionId fromAccountId toAccountId amount.value transaction.status.value)
  | .getBalance accountId, .balance balance => some (.balance accountId balance "INR")
  | .getBalanceAt accountId timestamp, .balance balance => some (.balanceAt accountId balance timestamp)
  | _, _ => none

/-- `except ValueError as e: raise HTTPException(.., detail=str(e))`, but for the route that creates accounts. -/
def httpError : Request → PyError → HttpError
  | .createAccount _, error => .unhandled error
  | .getBalance _, .valueError detail => .httpException 404 detail
  | .getBalanceAt _ _, .valueError detail => .httpException 404 detail
  | _, .valueError detail => .httpException 400 detail
  | _, error => .unhandled error

variable {env : Deployment} {w : World} {s t : State (machine env)}

def reply (p : ℕ) (s : State (machine env)) : Option (Except HttpError Response) :=
  match requestOf p s, answer p s with
  | some request, some (.ok value) => (respond request value).map .ok
  | some request, some (.error error) => some (.error (httpError request error))
  | _, _ => none

theorem Outcome.responds {permit : Request → Prop} {past : List (Stmt × World)} {request : Request} {value : Value}
    (outcome : Outcome env permit past w request (.ret value)) : (respond request value).isSome := by
  cases outcome <;> rfl

theorem reply_isSome {ok : State (machine env) → Action (machine env) → Prop} (opening : w.Opening)
    (runs : (machine env).Runs ok ((machine env).initial w) s) {p : ℕ} (ended : (answer p s).isSome) :
    (reply p s).isSome := by
  cases found : s.procs p with
  | none => simp [answer, found] at ended
  | some proc =>
    cases answered : answer p s with
    | none => simp [answered] at ended
    | some result =>
      cases result with
      | error error => simp [reply, requestOf_eq found, answered]
      | ok value =>
        obtain ⟨u, _, _, outcome⟩ := outcome_of_runs (fun _ => True) (fun _ _ _ _ => trivial) opening runs found
          (answer_eq_ok found answered)
        simp [reply, requestOf_eq found, answered, outcome.responds]

end Ledger
end LedgerFlow
