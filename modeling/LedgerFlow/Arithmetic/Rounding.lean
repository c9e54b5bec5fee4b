import Mathlib.Algebra.Order.Round
import Mathlib.Algebra.Order.Floor.Ring
import Mathlib.Data.Rat.Floor
import Mathlib.Tactic

/-! Rounding to the nearest integer, ties to even, beside Mathlib's `round` (ties upwards), with
the integer algorithms that compute the two on a quotient of naturals. -/

namespace Rounding

def roundEven (q : ℚ) : ℤ :=
  if Int.fract q < 1 / 2 ∨ Int.fract q = 1 / 2 ∧ Even ⌊q⌋ then ⌊q⌋ else ⌊q⌋ + 1

theorem floor_le_roundEven (q : ℚ) : ⌊q⌋ ≤ roundEven q := by
  unfold roundEven
  split_ifs <;> omega

theorem roundEven_le_floor (q : ℚ) : roundEven q ≤ ⌊q⌋ + 1 := by
  unfold roundEven
  split_ifs <;> omega

@[simp] theorem roundEven_intCast (n : ℤ) : roundEven (n : ℚ) = n := by
  simp [roundEven]

theorem roundEven_monotone : Monotone roundEven := by
  intro a b le
  have floors : ⌊a⌋ ≤ ⌊b⌋ := Int.floor_le_floor le
  rcases floors.lt_or_eq with less | same
  · have upper := roundEven_le_floor a
    have lower := floor_le_roundEven b
    omega
  · have fracts : Int.fract a ≤ Int.fract b := by
      have ha := Int.fract_add_floor a
      have hb := Int.fract_add_floor b
      have same' : (⌊a⌋ : ℚ) = ⌊b⌋ := by exact_mod_cast same
      linarith
    unfold roundEven
    rw [same]
    split_ifs with first second second
    · exact le_rfl
    · omega
    · exfalso
      rcases second with below | ⟨tie, even⟩
      · exact first (.inl (lt_of_le_of_lt fracts below))
      · rcases (tie ▸ fracts).lt_or_eq with below | tie'
        · exact first (.inl below)
        · exact first (.inr ⟨tie', even⟩)
    · exact le_rfl

theorem abs_sub_roundEven_le (q : ℚ) : |q - roundEven q| ≤ 1 / 2 := by
  have split := Int.fract_add_floor q
  have nonneg := Int.fract_nonneg q
  have small := Int.fract_lt_one q
  unfold roundEven
  split_ifs with lower
  · have half : Int.fract q ≤ 1 / 2 := by
      rcases lower with below | ⟨tie, _⟩
      · exact below.le
      · exact tie.le
    rw [abs_le]
    constructor <;> linarith
  · have half : 1 / 2 ≤ Int.fract q := by
      by_contra below
      exact lower (.inl (not_le.mp below))
    rw [abs_le]
    push_cast
    constructor <;> linarith

theorem roundEven_tie {n : ℤ} (even : Even n) : roundEven ((n : ℚ) - 1 / 2) = n := by
  have floor : ⌊(n : ℚ) - 1 / 2⌋ = n - 1 := by
    rw [Int.floor_eq_iff]
    push_cast
    constructor <;> linarith
  have fract : Int.fract ((n : ℚ) - 1 / 2) = 1 / 2 := by
    rw [Int.fract, floor]
    push_cast
    ring
  have odd : ¬Even (n - 1) := by
    rw [Int.not_even_iff_odd]
    exact even.sub_odd odd_one
  rw [roundEven, fract, floor, if_neg (by simp [odd])]
  omega

theorem roundEven_of_near {n : ℤ} {q : ℚ} (even : Even n) (lower : (n : ℚ) - 1 / 2 ≤ q) (upper : q ≤ n) :
    roundEven q = n := by
  have first := roundEven_monotone lower
  have second := roundEven_monotone upper
  rw [roundEven_tie even] at first
  rw [roundEven_intCast] at second
  omega

def halfEvenDiv (c k : ℕ) : ℕ :=
  if 2 * (c % k) < k ∨ 2 * (c % k) = k ∧ c / k % 2 = 0 then c / k else c / k + 1

theorem halfEvenDiv_le {c k m : ℕ} (less : c < m * k) : halfEvenDiv c k ≤ m := by
  have quotient : c / k < m := Nat.div_lt_of_lt_mul (by rwa [Nat.mul_comm] at less)
  unfold halfEvenDiv
  split_ifs <;> omega

def halfUpDiv (c k : ℕ) : ℕ := (2 * c + k) / (2 * k)

theorem fract_div (c k : ℕ) (positive : 0 < k) : Int.fract ((c : ℚ) / k) = ((c % k : ℕ) : ℚ) / k := by
  have nonzero : (k : ℚ) ≠ 0 := by exact_mod_cast positive.ne'
  have floor : ⌊(c : ℚ) / k⌋ = ((c / k : ℕ) : ℤ) := by
    rw [Rat.floor_natCast_div_natCast]
    norm_cast
  have split : ((c % k : ℕ) : ℚ) + k * (c / k : ℕ) = c := by exact_mod_cast Nat.mod_add_div c k
  rw [Int.fract, floor, eq_div_iff nonzero, sub_mul, div_mul_cancel₀ _ nonzero, Int.cast_natCast]
  linarith

theorem roundEven_div (c k : ℕ) (positive : 0 < k) : roundEven ((c : ℚ) / k) = halfEvenDiv c k := by
  have real : (0 : ℚ) < k := by exact_mod_cast positive
  have floor : ⌊(c : ℚ) / k⌋ = ((c / k : ℕ) : ℤ) := by
    rw [Rat.floor_natCast_div_natCast]
    norm_cast
  have below : ((c % k : ℕ) : ℚ) / k < 1 / 2 ↔ 2 * (c % k) < k := by
    rw [div_lt_div_iff₀ real (by norm_num)]
    norm_cast
    omega
  have tie : ((c % k : ℕ) : ℚ) / k = 1 / 2 ↔ 2 * (c % k) = k := by
    rw [div_eq_div_iff real.ne' (by norm_num)]
    norm_cast
    omega
  have even : Even ((c / k : ℕ) : ℤ) ↔ c / k % 2 = 0 := by
    rw [Int.even_coe_nat, Nat.even_iff]
  unfold roundEven halfEvenDiv
  simp only [fract_div c k positive, floor, below, tie, even]
  split_ifs <;> simp

theorem round_div (c k : ℕ) (positive : 0 < k) : round ((c : ℚ) / k) = halfUpDiv c k := by
  have real : (k : ℚ) ≠ 0 := by exact_mod_cast positive.ne'
  have same : (c : ℚ) / k + 1 / 2 = ((2 * c + k : ℕ) : ℚ) / ((2 * k : ℕ) : ℚ) := by
    push_cast
    field_simp
  rw [round_eq, same, Rat.floor_natCast_div_natCast, halfUpDiv]
  norm_cast

end Rounding
