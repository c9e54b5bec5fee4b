import LedgerFlow.Arithmetic.Rounding

/-! Finite values of Python's `decimal.Decimal` and the arithmetic of its default context: 28
significant digits, ties to even, exponents from -999999 to 999999, overflow trapped. -/

/-- `_sign`, `_int` and `_exp` of a finite `Decimal`. -/
structure Decimal where
  sign : Bool
  int : ℕ
  exp : ℤ
  deriving DecidableEq, Repr

namespace Decimal
open Rounding

def magnitude (d : Decimal) : ℚ := d.int * (10 : ℚ) ^ d.exp

def toRat (d : Decimal) : ℚ := if d.sign then -d.magnitude else d.magnitude

instance : LT Decimal := ⟨fun a b => a.toRat < b.toRat⟩

instance (a b : Decimal) : Decidable (a < b) := inferInstanceAs (Decidable (a.toRat < b.toRat))

def ofNat (n : ℕ) : Decimal := ⟨false, n, 0⟩

/-- The decimal PostgreSQL returns for a whole number of units of `10 ^ -scale`. -/
def ofUnits (units : ℤ) (scale : ℕ) : Decimal := ⟨units < 0, units.natAbs, -scale⟩

def digits (d : Decimal) : ℕ := (Nat.toDigits 10 d.int).length

def prec : ℕ := 28
def emax : ℤ := 999999
def emin : ℤ := -999999
def etiny : ℤ := emin - prec + 1
def etop : ℤ := emax - prec + 1

/-- The least exponent the context can keep for the digits of `d`. -/
def expMin (d : Decimal) : ℤ := max (d.digits + d.exp - prec) etiny

/-- `Decimal._fix`: the value rounded to the context, or nothing where the context raises `Overflow`. -/
def fix (d : Decimal) : Option Decimal :=
  if d.int = 0 then some { d with exp := min (max d.exp etiny) emax }
  else if etop < d.digits + d.exp - prec then none
  else if d.exp < d.expMin then
    let coefficient := halfEvenDiv d.int (10 ^ (d.expMin - d.exp).toNat)
    -- rounding up 99..9 gives one digit too many
    if (Nat.toDigits 10 coefficient).length ≤ prec then some ⟨d.sign, coefficient, d.expMin⟩
    else if etop < d.expMin + 1 then none
    else some ⟨d.sign, coefficient / 10, d.expMin + 1⟩
  else some d

/-- `Decimal.__neg__`: a zero loses its sign, and the result is rounded to the context. -/
def neg (d : Decimal) : Option Decimal :=
  fix (if d.int = 0 then { d with sign := false } else { d with sign := !d.sign })

def ulp (d : Decimal) : ℚ := (10 : ℚ) ^ d.expMin

def rounded (d : Decimal) : ℚ := roundEven (d.magnitude / d.ulp) * d.ulp

theorem ulp_pos (d : Decimal) : 0 < d.ulp := zpow_pos (by norm_num) _

theorem magnitude_nonneg (d : Decimal) : 0 ≤ d.magnitude :=
  mul_nonneg (by positivity) (zpow_nonneg (by norm_num) _)

theorem eq_of_toRat {a b : Decimal} (sign : a.sign = false) (sign' : b.sign = false) (number : a.toRat = b.toRat)
    (exponent : a.exp = b.exp) : a = b := by
  obtain ⟨_, int, exp⟩ := a
  obtain ⟨_, int', exp'⟩ := b
  subst sign sign' exponent
  simp only [toRat, magnitude, Bool.false_eq_true, ↓reduceIte] at number
  have unit : (10 : ℚ) ^ exp ≠ 0 := zpow_ne_zero _ (by norm_num)
  have coefficient := mul_right_cancel₀ unit number
  rw [Nat.cast_injective coefficient]

theorem ofUnits_toRat (units : ℤ) (scale : ℕ) : (ofUnits units scale).toRat = units / 10 ^ scale := by
  have size : ((units.natAbs : ℕ) : ℚ) = |(units : ℚ)| := by
    rw [← Int.cast_abs, ← Int.natCast_natAbs, Int.cast_natCast]
  unfold ofUnits toRat magnitude
  rw [size, zpow_neg, zpow_natCast, ← div_eq_mul_inv]
  by_cases negative : units < 0
  · rw [decide_eq_true negative, if_pos rfl, abs_of_neg (by exact_mod_cast negative), neg_div, neg_neg]
  · rw [decide_eq_false negative, if_neg (by simp), abs_of_nonneg (by exact_mod_cast not_lt.mp negative)]

theorem int_lt_pow_digits (d : Decimal) : d.int < 10 ^ d.digits :=
  (Nat.length_toDigits_le_iff (by decide) (Nat.length_toDigits_pos)).1 le_rfl

theorem pow_digits_le_int {d : Decimal} (nonzero : d.int ≠ 0) : 10 ^ (d.digits - 1) ≤ d.int := by
  by_contra less
  rcases Nat.eq_zero_or_pos (d.digits - 1) with one | more
  · rw [one] at less
    omega
  · have shorter := (Nat.length_toDigits_le_iff (by decide) more).2 (not_le.mp less)
    change d.digits ≤ d.digits - 1 at shorter
    omega

theorem digits_pos (d : Decimal) : 0 < d.digits := Nat.length_toDigits_pos

theorem leading_le_magnitude {d : Decimal} (nonzero : d.int ≠ 0) :
    (10 : ℚ) ^ ((d.digits : ℤ) - 1 + d.exp) ≤ d.magnitude := by
  have digits := d.digits_pos
  have power : (10 : ℚ) ^ ((d.digits : ℤ) - 1) ≤ d.int := by
    have cast : ((d.digits : ℤ) - 1) = ((d.digits - 1 : ℕ) : ℤ) := by omega
    rw [cast, zpow_natCast]
    exact_mod_cast pow_digits_le_int nonzero
  rw [zpow_add₀ (by norm_num)]
  exact mul_le_mul_of_nonneg_right power (zpow_nonneg (by norm_num) _)

theorem rounded_monotone_le {d : Decimal} {m : ℤ} (le : d.magnitude ≤ m * d.ulp) : d.rounded ≤ m * d.ulp := by
  have quotient : d.magnitude / d.ulp ≤ m := (div_le_iff₀ d.ulp_pos).2 le
  have bound := roundEven_monotone quotient
  rw [roundEven_intCast] at bound
  exact mul_le_mul_of_nonneg_right (by exact_mod_cast bound) d.ulp_pos.le

theorem le_rounded {d : Decimal} {m : ℤ} (le : m * d.ulp ≤ d.magnitude) : m * d.ulp ≤ d.rounded := by
  have quotient : (m : ℚ) ≤ d.magnitude / d.ulp := (le_div_iff₀ d.ulp_pos).2 le
  have bound := roundEven_monotone quotient
  rw [roundEven_intCast] at bound
  exact mul_le_mul_of_nonneg_right (by exact_mod_cast bound) d.ulp_pos.le

theorem rounded_nonneg (d : Decimal) : 0 ≤ d.rounded := by
  have le : ((0 : ℤ) : ℚ) * d.ulp ≤ d.magnitude := by simpa using d.magnitude_nonneg
  simpa using le_rounded le

/-- Rounding moves a value by at most half a unit. -/
theorem abs_magnitude_sub_rounded_le (d : Decimal) : |d.magnitude - d.rounded| ≤ d.ulp / 2 := by
  have near := abs_sub_roundEven_le (d.magnitude / d.ulp)
  have scaled : d.magnitude - d.rounded = (d.magnitude / d.ulp - roundEven (d.magnitude / d.ulp)) * d.ulp := by
    rw [sub_mul, div_mul_cancel₀ _ d.ulp_pos.ne', rounded]
  rw [scaled, abs_mul, abs_of_pos d.ulp_pos]
  calc
    _ ≤ 1 / 2 * d.ulp := mul_le_mul_of_nonneg_right near d.ulp_pos.le
    _ = d.ulp / 2 := by ring

theorem zpow_multiple {a b : ℤ} (le : a ≤ b) :
    (10 : ℚ) ^ b = ((10 ^ (b - a).toNat : ℤ) : ℚ) * (10 : ℚ) ^ a := by
  have split : b = ((b - a).toNat : ℤ) + a := by omega
  conv_lhs => rw [split, zpow_add₀ (by norm_num : (10 : ℚ) ≠ 0), zpow_natCast]
  push_cast
  rfl

theorem rounded_eq_magnitude {d : Decimal} (fits : d.expMin ≤ d.exp) : d.rounded = d.magnitude := by
  have multiple : d.magnitude = ((d.int * 10 ^ (d.exp - d.expMin).toNat : ℤ) : ℚ) * d.ulp := by
    rw [magnitude, zpow_multiple fits, ulp]
    push_cast
    ring
  rw [rounded, multiple, mul_div_cancel_right₀ _ d.ulp_pos.ne', roundEven_intCast]

theorem rounded_eq_halfEvenDiv {d : Decimal} (longer : d.exp < d.expMin) :
    d.rounded = (halfEvenDiv d.int (10 ^ (d.expMin - d.exp).toNat) : ℚ) * d.ulp := by
  have quotient : d.magnitude / d.ulp = (d.int : ℚ) / ((10 ^ (d.expMin - d.exp).toNat : ℕ) : ℚ) := by
    have nonzero : (10 : ℚ) ^ d.exp ≠ 0 := zpow_ne_zero _ (by norm_num)
    rw [magnitude, ulp, zpow_multiple longer.le]
    push_cast
    field_simp
  rw [rounded, quotient, roundEven_div _ _ (by positivity), Int.cast_natCast]

/-- The coefficient kept by rounding has at most one digit too many, and then it is a power of ten. -/
theorem rounded_coefficient_le {d : Decimal} (longer : d.exp < d.expMin) :
    halfEvenDiv d.int (10 ^ (d.expMin - d.exp).toNat) ≤ 10 ^ prec := by
  apply halfEvenDiv_le
  calc
    d.int < 10 ^ d.digits := d.int_lt_pow_digits
    _ ≤ 10 ^ (prec + (d.expMin - d.exp).toNat) := by
      apply Nat.pow_le_pow_right (by decide)
      have least : (d.digits : ℤ) + d.exp - prec ≤ d.expMin := le_max_left _ _
      omega
    _ = 10 ^ prec * 10 ^ (d.expMin - d.exp).toNat := pow_add _ _ _

theorem fix_magnitude {d d' : Decimal} (nonzero : d.int ≠ 0) (fixed : d.fix = some d') :
    d'.sign = d.sign ∧ d'.magnitude = d.rounded := by
  simp only [fix, if_neg nonzero] at fixed
  split_ifs at fixed with _ longer short
  · cases fixed
    exact ⟨rfl, (rounded_eq_halfEvenDiv longer).symm⟩
  · cases fixed
    refine ⟨rfl, ?_⟩
    have power : halfEvenDiv d.int (10 ^ (d.expMin - d.exp).toNat) = 10 ^ prec := by
      refine le_antisymm (rounded_coefficient_le longer) ?_
      by_contra less
      exact short ((Nat.length_toDigits_le_iff (by decide) (by decide)).2 (not_le.mp less))
    rw [rounded_eq_halfEvenDiv longer, magnitude, ulp, zpow_add₀ (by norm_num)]
    simp only [power, prec]
    norm_num
    ring
  · cases fixed
    exact ⟨rfl, (rounded_eq_magnitude (not_lt.mp longer)).symm⟩

theorem neg_magnitude {d d' : Decimal} (nonzero : d.int ≠ 0) (negated : d.neg = some d') :
    d'.sign = !d.sign ∧ d'.magnitude = d.rounded := by
  rw [neg, if_neg nonzero] at negated
  exact fix_magnitude (d := { d with sign := !d.sign }) nonzero negated

/-- Where the kept unit is above `10 ^ e`, the value itself is at least `10 ^ (e + 28)`. -/
theorem pow_le_magnitude {d : Decimal} {e : ℤ} (nonzero : d.int ≠ 0) (normal : etiny ≤ e)
    (coarse : e < d.expMin) : (10 : ℚ) ^ (e + prec) ≤ d.magnitude := by
  have unit : d.expMin = d.digits + d.exp - prec := by
    rcases max_choice ((d.digits : ℤ) + d.exp - prec) etiny with same | same
    · exact same
    · rw [expMin, same] at coarse
      omega
  refine le_trans (zpow_le_zpow_right₀ (by norm_num) ?_) (leading_le_magnitude nonzero)
  omega

end Decimal
