import LedgerFlow.Arithmetic.Numeric
import LedgerFlow.Common.Values
import Mathlib.Algebra.Order.Monoid.WithTop

/-! Processed events, projected balances and the messages a consumer is handed. -/

namespace LedgerFlow.Consumers

structure ProcessedEvent where
  eventId : UUID
  eventType : String
  processedAt : Timestamp

inductive Balance where
  | number (value : Numeric 18 2)
  | nan
  deriving DecidableEq

structure AccountBalanceProjection where
  accountId : UUID
  balance : Balance
  updatedAt : Timestamp

structure Message where
  topic : String
  partition : ℕ
  offset : ℕ
  value : Json

def negate : Decimal.Number → Except PyError Decimal.Number
  | .finite d =>
    match d.neg with
    | some negated => .ok (.finite negated)
    | none => .error .overflow
  | .infinite sign => .ok (.infinite !sign)
  | .nan false => .ok (.nan false)
  | .nan true => .error .invalidOperation

/-- A number in cents, rounded to two decimals. What is not a number absorbs every other one. -/
def cents : Decimal.Number → WithTop ℤ
  | .finite d => (Numeric.quantize 2 d : ℤ)
  | _ => ⊤

namespace Balance

def ofNumber : Decimal.Number → Option Balance
  | .finite d => (Numeric.cast 18 2 d).map .number
  | .infinite _ => none
  | .nan _ => some .nan

def add : Balance → Balance → Option Balance
  | .number a, .number b =>
    if fits : (a.unscaled + b.unscaled).natAbs < 10 ^
      18 then some (.number ⟨a.unscaled + b.unscaled, fits⟩) else none
  | _, _ => some .nan

def cents : Balance → WithTop ℤ
  | .number value => (value.unscaled : ℤ)
  | .nan => ⊤

theorem cents_small {b : Balance} {n : ℤ} (number : b.cents = n) : n.natAbs < 10 ^ 18 := by
  cases b with
  | number value =>
    rw [← WithTop.coe_inj.1 number]
    exact value.inRange
  | nan => exact absurd number WithTop.top_ne_coe

theorem cents_ofNumber {delta : Decimal.Number} {b : Balance} (stored : ofNumber delta = some b) :
    b.cents = Consumers.cents delta := by
  cases delta with
  | finite d =>
    obtain ⟨value, cast, rfl⟩ := Option.map_eq_some_iff.1 stored
    exact congrArg WithTop.some (Numeric.cast_unscaled cast)
  | infinite sign => cases stored
  | nan signaling =>
    cases stored
    rfl

theorem cents_add {a b c : Balance} (added : a.add b = some c) : c.cents = a.cents + b.cents := by
  cases a with
  | nan =>
    cases added
    exact (top_add _).symm
  | number a =>
    cases b with
    | nan =>
      cases added
      exact (add_top _).symm
    | number b =>
      simp only [add] at added
      split_ifs at added
      cases added
      exact WithTop.coe_add ..

end Balance
end LedgerFlow.Consumers
