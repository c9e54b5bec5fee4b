import LedgerFlow.Consumers.Service
import Mathlib.Algebra.Order.Monoid.WithTop

/-! What an event does to the projection: the balance changes that `apply_balance_projection` decodes from it, and
what they come to on one account. -/

namespace LedgerFlow.Consumers
open Concurrency

/-- The changes that an event asks for, one for each upsert, in their order. -/
def deltas (event : Json) : Except PyError (List (UUID × Decimal.Number)) := do
  let eventType ← event.item "event_type"
  let payload ← event.item "payload"
  if eventType.Is "DEPOSIT_POSTED" then do
    let account ← payload.item "account_id"
    let accountId ← account.uuid
    let value ← payload.item "amount"
    let amount ← value.decimal
    .ok [(accountId, amount)]
  else if eventType.Is "WITHDRAWAL_POSTED" then do
    let account ← payload.item "account_id"
    let accountId ← account.uuid
    let value ← payload.item "amount"
    let amount ← value.decimal
    let negated ← negate amount
    .ok [(accountId, negated)]
  else if eventType.Is "TRANSFER_POSTED" then do
    let source ← payload.item "source_account_id"
    let sourceAccountId ← source.uuid
    let destination ← payload.item "destination_account_id"
    let destinationAccountId ← destination.uuid
    let value ← payload.item "amount"
    let amount ← value.decimal
    let negated ← negate amount
    .ok [(sourceAccountId, negated), (destinationAccountId, amount)]
  else .ok []

def applyAll : List (UUID × Decimal.Number) → Code Unit
  | [] => .ret ()
  | change :: changes => do
    applyDelta change.1 change.2
    applyAll changes

def sumOn (accountId : UUID) (changes : List (UUID × Decimal.Number)) : WithTop ℤ :=
  (changes.map fun change => if change.1 = accountId then cents change.2 else 0).sum

def delta (event : Json) (accountId : UUID) : WithTop ℤ :=
  match deltas event with
  | .ok changes => sumOn accountId changes
  | .error _ => 0

@[simp] theorem checked_ok {α : Type} (value : α) : checked (.ok value) = .ret value := rfl

@[simp] theorem checked_error {α : Type} (error : PyError) :
    checked (.error error : Except PyError α) = .raise error := rfl

theorem checked_bind {α β : Type} (result : Except PyError α) (f : α → Except PyError β) :
    checked (result >>= f) = checked result >>= fun value => checked (f value) := by
  cases result with
  | error error => rfl
  | ok value => rfl

theorem applyBalanceProjection_eq (event : Json) :
    applyBalanceProjection event = checked (deltas event) >>= applyAll := by
  have single (accountId : UUID) (value : Decimal.Number) :
      applyAll [(accountId, value)] = applyDelta accountId value :=
    Prog.bind_ret _
  have pair (first second : UUID × Decimal.Number) :
      applyAll [first, second] = applyDelta first.1 first.2 >>= fun _ => applyDelta second.1 second.2 :=
    congrArg (applyDelta first.1 first.2 >>= ·) (funext fun _ => Prog.bind_ret _)
  unfold applyBalanceProjection deltas
  simp only [checked_bind, Prog.bind_assoc]
  refine congrArg _ (funext fun eventType => congrArg _ (funext fun payload => ?_))
  split_ifs
  · simp only [checked_bind, Prog.bind_assoc, checked_ok, Prog.ret_bind, single]
  · simp only [checked_bind, Prog.bind_assoc, checked_ok, Prog.ret_bind, single]
  · simp only [checked_bind, Prog.bind_assoc, checked_ok, Prog.ret_bind, pair]
  · rfl

@[simp] theorem sumOn_nil (accountId : UUID) : sumOn accountId [] = 0 := rfl

theorem sumOn_append (accountId : UUID) (first second : List (UUID × Decimal.Number)) :
    sumOn accountId (first ++ second) = sumOn accountId first + sumOn accountId second := by
  simp only [sumOn, List.map_append, List.sum_append]

theorem sumOn_singleton_self (accountId : UUID) (value : Decimal.Number) :
    sumOn accountId [(accountId, value)] = cents value := by
  simp [sumOn]

theorem sumOn_singleton_ne {accountId other : UUID} (different : accountId ≠ other) (value : Decimal.Number) :
    sumOn other [(accountId, value)] = 0 := by
  simp [sumOn, different]

theorem delta_ok {event : Json} {changes : List (UUID × Decimal.Number)} (decoded : deltas event = .ok changes)
    (accountId : UUID) : delta event accountId = sumOn accountId changes := by
  rw [delta, decoded]

theorem deltas_unknown {event eventType payload : Json} (typed : event.item "event_type" = .ok eventType)
    (carried : event.item "payload" = .ok payload) (unknown : ∀ known ∈
      ["DEPOSIT_POSTED", "WITHDRAWAL_POSTED", "TRANSFER_POSTED"], ¬eventType.Is known) : deltas event = .ok [] := by
  have deposit := unknown "DEPOSIT_POSTED" (by simp)
  have withdrawal := unknown "WITHDRAWAL_POSTED" (by simp)
  have transfer := unknown "TRANSFER_POSTED" (by simp)
  unfold deltas
  rw [typed, carried]
  show (if _ then _ else _) = _
  rw [if_neg deposit, if_neg withdrawal, if_neg transfer]

end LedgerFlow.Consumers
