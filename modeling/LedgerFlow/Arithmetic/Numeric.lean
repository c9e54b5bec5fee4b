import LedgerFlow.Arithmetic.Decimal

/-! PostgreSQL's `numeric(precision, scale)`: a value is stored as a whole number of units of its
last digit; a cast rounds half away from zero and refuses what does not fit. -/

/-- A stored value, in units of `10 ^ -scale`. -/
structure Numeric (precision scale : ℕ) where
  unscaled : ℤ
  inRange : unscaled.natAbs < 10 ^ precision
  deriving DecidableEq

namespace Numeric
open Rounding
variable {precision scale : ℕ}

def toRat (n : Numeric precision scale) : ℚ := n.unscaled / 10 ^ scale

def quantizeMagnitude (scale : ℕ) (d : Decimal) : ℕ :=
  if 0 ≤ d.exp + scale then d.int * 10 ^ (d.exp + scale).toNat
  else halfUpDiv d.int (10 ^ (-(d.exp + scale)).toNat)

def quantize (scale : ℕ) (d : Decimal) : ℤ :=
  if d.sign then -(quantizeMagnitude scale d : ℤ) else quantizeMagnitude scale d

/-- The value stored for `d`, or nothing where the column cannot hold it. -/
def cast (precision scale : ℕ) (d : Decimal) : Option (Numeric precision scale) :=
  if fits : (quantize scale d).natAbs < 10 ^ precision then some ⟨quantize scale d, fits⟩ else none

theorem cast_unscaled {d : Decimal} {n : Numeric precision scale} (stored : cast precision scale d = some n) :
    n.unscaled = quantize scale d := by
  unfold cast at stored
  split_ifs at stored
  cases stored
  rfl

theorem quantizeMagnitude_eq_round (scale : ℕ) (d : Decimal) :
    (quantizeMagnitude scale d : ℤ) = round (d.magnitude * 10 ^ scale) := by
  have scaled : d.magnitude * 10 ^ scale = d.int * (10 : ℚ) ^ (d.exp + scale) := by
    rw [Decimal.magnitude, zpow_add₀ (by norm_num), zpow_natCast, mul_assoc]
  unfold quantizeMagnitude
  split_ifs with whole
  · have integer : d.magnitude * 10 ^ scale = ((d.int * 10 ^ (d.exp + scale).toNat : ℕ) : ℤ) := by
      rw [scaled]
      conv_lhs => rw [← Int.toNat_of_nonneg whole, zpow_natCast]
      push_cast
      rfl
    rw [integer, round_intCast]
  · have quotient : d.magnitude * 10 ^ scale = (d.int : ℚ) / ((10 ^ (-(d.exp + scale)).toNat : ℕ) : ℚ) := by
      have flip : d.exp + scale = -((-(d.exp + scale)).toNat : ℤ) := by omega
      rw [scaled]
      conv_lhs => rw [flip, zpow_neg, zpow_natCast]
      push_cast
      rw [div_eq_mul_inv]
    rw [quotient, round_div _ _ (by positivity)]

theorem cast_neg_unscaled {d d' : Decimal} {n : Numeric precision scale} (positive : d.sign = false)
    (nonzero : d.int ≠ 0) (negated : d.neg = some d') (stored : cast precision scale d' = some n) :
    n.unscaled = -round (d.rounded * 10 ^ scale) := by
  obtain ⟨sign, magnitude⟩ := Decimal.neg_magnitude nonzero negated
  rw [cast_unscaled stored, quantize, sign, positive, quantizeMagnitude_eq_round, magnitude]
  simp

theorem cast_pos_unscaled {d : Decimal} {n : Numeric precision scale} (positive : d.sign = false)
    (stored : cast precision scale d = some n) : n.unscaled = round (d.magnitude * 10 ^ scale) := by
  rw [cast_unscaled stored, quantize, positive, quantizeMagnitude_eq_round]
  simp

theorem cast_pos_nonneg {d : Decimal} {n : Numeric precision scale} (positive : d.sign = false)
    (stored : cast precision scale d = some n) : 0 ≤ n.unscaled := by
  rw [cast_unscaled stored, quantize, positive]
  simp

theorem round_monotone {a b : ℚ} (le : a ≤ b) : round a ≤ round b := by
  rw [round_eq, round_eq]
  exact Int.floor_le_floor (by linarith)

theorem pow_le_rounded {d : Decimal} {e : ℤ} (nonzero : d.int ≠ 0) (normal : Decimal.etiny ≤ e)
    (coarse : e < d.expMin) : (10 : ℚ) ^ (e + Decimal.prec) ≤ d.rounded := by
  have top : (10 : ℚ) ^ (d.expMin - 1 + Decimal.prec) ≤ d.magnitude :=
    Decimal.pow_le_magnitude nonzero (by omega) (by omega)
  have unit : d.expMin ≤ d.expMin - 1 + Decimal.prec := by simp only [Decimal.prec]; omega
  rw [Decimal.zpow_multiple unit] at top
  refine le_trans ?_ (Decimal.le_rounded top)
  rw [Decimal.ulp, ← Decimal.zpow_multiple unit]
  exact zpow_le_zpow_right₀ (by norm_num) (by omega)

theorem expMin_le_of_fits {d : Decimal} (precision slack : ℕ) (nonzero : d.int ≠ 0)
    (small : (scale : ℤ) + slack ≤ -Decimal.etiny) (wide : precision + slack ≤ Decimal.prec)
    (fits : (round (d.rounded * 10 ^ scale)).natAbs < 10 ^ precision) : d.expMin ≤ -(scale : ℤ) - slack := by
  by_contra coarse
  have large := pow_le_rounded nonzero (e := -(scale : ℤ) - slack) (by omega) (by omega)
  have scaled : ((10 ^ precision : ℕ) : ℚ) ≤ d.rounded * 10 ^ scale := by
    calc
      ((10 ^ precision : ℕ) : ℚ) = (10 : ℚ) ^ (precision : ℤ) := by norm_cast
      _ ≤ (10 : ℚ) ^ (-(scale : ℤ) - slack + Decimal.prec + scale) :=
        zpow_le_zpow_right₀ (by norm_num) (by omega)
      _ = (10 : ℚ) ^ (-(scale : ℤ) - slack + Decimal.prec) * 10 ^ scale := by
        rw [zpow_add₀ (by norm_num) _ (scale : ℤ), zpow_natCast]
      _ ≤ d.rounded * 10 ^ scale := mul_le_mul_of_nonneg_right large (by positivity)
  have units := round_monotone scaled
  rw [round_natCast] at units
  omega

/-- A debit that was checked against a balance of whole units never exceeds it, whatever the
rounding on the way to the column. -/
theorem cast_neg_le_balance {d d' : Decimal} {n : Numeric precision scale} {balance : ℤ}
    (positive : d.sign = false) (nonzero : d.int ≠ 0) (small : (scale : ℤ) ≤ -Decimal.etiny)
    (wide : precision ≤ Decimal.prec) (negated : d.neg = some d') (stored : cast precision scale d' = some n)
    (covered : d.magnitude ≤ balance / 10 ^ scale) : -n.unscaled ≤ balance := by
  have units := cast_neg_unscaled positive nonzero negated stored
  have fits : (round (d.rounded * 10 ^ scale)).natAbs < 10 ^ precision := by
    have range := n.inRange
    rwa [units, Int.natAbs_neg] at range
  have fine := expMin_le_of_fits precision 0 nonzero (by simpa using small) (by simpa using wide) fits
  have multiple : (balance : ℚ) / 10 ^ scale =
      ((balance * 10 ^ (-(scale : ℤ) - d.expMin).toNat : ℤ) : ℚ) * d.ulp := by
    rw [Int.cast_mul, mul_assoc, Decimal.ulp, ← Decimal.zpow_multiple (by simpa using fine), zpow_neg,
      zpow_natCast, div_eq_mul_inv]
  have bound : d.rounded ≤ balance / 10 ^ scale := by
    rw [multiple] at covered ⊢
    exact Decimal.rounded_monotone_le covered
  have scaled : d.rounded * 10 ^ scale ≤ (balance : ℚ) := by
    calc
      _ ≤ (balance : ℚ) / 10 ^ scale * 10 ^ scale := mul_le_mul_of_nonneg_right bound (by positivity)
      _ = balance := div_mul_cancel₀ _ (by positivity)
  have rounded := round_monotone scaled
  rw [round_intCast] at rounded
  rw [units, neg_neg]
  exact rounded

theorem fine_of_cast {d d' : Decimal} {n : Numeric precision scale} (positive : d.sign = false)
    (nonzero : d.int ≠ 0)
    (small : (scale : ℤ) + 2 ≤ -Decimal.etiny) (wide : precision + 2 ≤ Decimal.prec) (negated : d.neg = some d')
    (stored : cast precision scale d' = some n) : d.expMin ≤ -(scale : ℤ) - 2 := by
  refine expMin_le_of_fits precision 2 nonzero (by simpa using small) (by simpa using wide) ?_
  have range := n.inRange
  rwa [cast_neg_unscaled positive nonzero negated stored, Int.natAbs_neg] at range

/-- `d` lies below a half unit of the column, but by no more than half a unit of the last digit the
context keeps: its negation is rounded onto the half unit first, and away from zero after that. -/
def BelowHalf (scale : ℕ) (d : Decimal) : Prop :=
  ∃ k : ℕ, (2 * k + 1) / (2 * 10 ^ scale) - d.ulp / 2 ≤ d.magnitude ∧
    d.magnitude < (2 * k + 1) / (2 * 10 ^ scale)

theorem half_multiple {scale k : ℕ} {d : Decimal} (fine : d.expMin ≤ -(scale : ℤ) - 2) :
    ∃ m : ℤ, Even m ∧ ((2 * k + 1) / (2 * 10 ^ scale) : ℚ) = m * d.ulp := by
  refine ⟨(2 * k + 1) * 5 * 10 ^ (-(scale : ℤ) - 1 - d.expMin).toNat, ?_, ?_⟩
  · refine Even.mul_left ?_ _
    exact (by decide : Even (10 : ℤ)).pow_of_ne_zero (by omega)
  · have unit := Decimal.zpow_multiple (a := d.expMin) (b := -(scale : ℤ) - 1) (by omega)
    have power : (10 : ℚ) ^ (-(scale : ℤ) - 1) = 1 / (10 * 10 ^ scale) := by
      rw [zpow_sub₀ (by norm_num), zpow_neg, zpow_natCast, zpow_one]
      field_simp
    rw [Int.cast_mul, mul_assoc, Decimal.ulp, ← unit, power]
    push_cast
    field_simp
    ring

theorem not_belowHalf_of_digits {d : Decimal} (fine : d.expMin ≤ -(scale : ℤ) - 2)
    (short : d.digits ≤ Decimal.prec) (normal : Decimal.etiny ≤ d.exp) : ¬BelowHalf scale d := by
  rintro ⟨k, near, below⟩
  obtain ⟨m, _, multiple⟩ := half_multiple (k := k) fine
  have whole := Decimal.zpow_multiple (a := d.expMin) (b := d.exp) (by simp only [Decimal.expMin]; omega)
  have units : d.magnitude = ((d.int * 10 ^ (d.exp - d.expMin).toNat : ℤ) : ℚ) * d.ulp := by
    rw [Decimal.magnitude, whole, Decimal.ulp]
    push_cast
    ring
  generalize (d.int * 10 ^ (d.exp - d.expMin).toNat : ℤ) = n at units
  have positive := d.ulp_pos
  rw [multiple, units] at near below
  have upper : n < m := by exact_mod_cast lt_of_mul_lt_mul_right below positive.le
  have lower : (m : ℚ) - 1 / 2 ≤ n := le_of_mul_le_mul_right (by linarith) positive
  have next : (n : ℚ) + 1 ≤ m := by exact_mod_cast upper
  linarith

/-- The column stores opposite values for an amount and its negation exactly when the
amount is not just below a half unit. -/
theorem balanced_iff {d d' : Decimal} {debit credit : Numeric precision scale} (positive : d.sign = false)
    (nonzero : d.int ≠ 0) (small : (scale : ℤ) + 2 ≤ -Decimal.etiny) (wide : precision + 2 ≤ Decimal.prec)
    (negated : d.neg = some d') (debited : cast precision scale d' = some debit)
    (credited : cast precision scale d = some credit) :
    debit.unscaled + credit.unscaled = 0 ↔ ¬BelowHalf scale d := by
  have power : (0 : ℚ) < 10 ^ scale := by positivity
  have fine := fine_of_cast positive nonzero small wide negated debited
  rw [cast_neg_unscaled positive nonzero negated debited, cast_pos_unscaled positive credited]
  constructor
  · rintro same ⟨k, near, below⟩
    -- the half unit is an even multiple of the kept unit, so rounding reaches it
    obtain ⟨m, even, multiple⟩ := half_multiple (k := k) fine
    have exact : roundEven (d.magnitude / d.ulp) = m := by
      rw [multiple] at near below
      refine roundEven_of_near even ?_ ?_
      · rw [le_div_iff₀ d.ulp_pos]
        linarith
      · rw [div_le_iff₀ d.ulp_pos]
        exact below.le
    have half : d.rounded * 10 ^ scale = k + 1 / 2 := by
      rw [Decimal.rounded, exact, ← multiple]
      field_simp
    have up : round (d.rounded * 10 ^ scale) = k + 1 := by
      rw [half, round_eq, Int.floor_eq_iff]
      push_cast
      constructor <;> linarith
    have down : round (d.magnitude * 10 ^ scale) < k + 1 := by
      rw [round_eq, Int.floor_lt]
      push_cast
      rw [lt_div_iff₀ (by positivity)] at below
      linarith
    omega
  · intro apart
    have bound := abs_le.1 d.abs_magnitude_sub_rounded_le
    rcases lt_trichotomy (round (d.magnitude * 10 ^ scale)) (round (d.rounded * 10 ^ scale)) with up | same | down
    · exfalso
      have start : 0 ≤ round (d.magnitude * 10 ^ scale) := by
        have le := round_monotone (mul_nonneg d.magnitude_nonneg power.le)
        simpa using le
      obtain ⟨k, level⟩ := Int.eq_ofNat_of_zero_le start
      have below : d.magnitude * 10 ^ scale < k + 1 / 2 := by
        have floor := Int.lt_floor_add_one (d.magnitude * 10 ^ scale + 1 / 2)
        rw [← round_eq, level] at floor
        push_cast at floor
        linarith
      have above : (k : ℚ) + 1 / 2 ≤ d.rounded * 10 ^ scale := by
        have floor := Int.floor_le (d.rounded * 10 ^ scale + 1 / 2)
        rw [← round_eq] at floor
        have next : ((k : ℤ) : ℚ) + 1 ≤ (round (d.rounded * 10 ^ scale) : ℚ) := by
          exact_mod_cast (by omega : (k : ℤ) + 1 ≤ round (d.rounded * 10 ^ scale))
        push_cast at next
        linarith
      refine apart ⟨k, ?_, ?_⟩
      · have half : (2 * k + 1 : ℚ) / (2 * 10 ^ scale) ≤ d.rounded := by
          rw [div_le_iff₀ (by positivity)]
          linarith
        linarith
      · rw [lt_div_iff₀ (by positivity)]
        linarith
    · omega
    · exfalso
      -- rounding to the context does not fall below a half unit the amount has reached
      have start : 0 ≤ round (d.rounded * 10 ^ scale) := by
        have le := round_monotone (mul_nonneg d.rounded_nonneg power.le)
        simpa using le
      obtain ⟨k, level⟩ := Int.eq_ofNat_of_zero_le start
      obtain ⟨m, _, multiple⟩ := half_multiple (k := k) fine
      have reached : ((2 * k + 1) / (2 * 10 ^ scale) : ℚ) ≤ d.magnitude := by
        have floor := Int.floor_le (d.magnitude * 10 ^ scale + 1 / 2)
        rw [← round_eq] at floor
        have next : ((k : ℤ) : ℚ) + 1 ≤ (round (d.magnitude * 10 ^ scale) : ℚ) := by
          exact_mod_cast (by omega : (k : ℤ) + 1 ≤ round (d.magnitude * 10 ^ scale))
        push_cast at next
        rw [div_le_iff₀ (by positivity)]
        linarith
      rw [multiple] at reached
      have kept := Decimal.le_rounded reached
      rw [← multiple, div_le_iff₀ (by positivity)] at kept
      have floor := Int.lt_floor_add_one (d.rounded * 10 ^ scale + 1 / 2)
      rw [← round_eq, level] at floor
      push_cast at floor
      linarith

theorem rounded_of_units {d : Decimal} {n : ℤ} (fine : d.expMin ≤ -(scale : ℤ))
    (units : d.magnitude * 10 ^ scale = n) : d.rounded = d.magnitude := by
  have multiple : d.magnitude = ((n * 10 ^ (-(scale : ℤ) - d.expMin).toNat : ℤ) : ℚ) * d.ulp := by
    calc
      d.magnitude = n * (10 : ℚ) ^ (-(scale : ℤ)) := by
        rw [← units, zpow_neg, zpow_natCast]
        field_simp
      _ = _ := by
        rw [Decimal.zpow_multiple fine, Decimal.ulp]
        push_cast
        ring
  rw [Decimal.rounded, multiple, mul_div_cancel_right₀ _ d.ulp_pos.ne', roundEven_intCast]

/-- Both stored values have the size of the amount exactly when it is a whole number of the column's units. -/
theorem exact_iff {d d' : Decimal} {debit credit : Numeric precision scale} (positive : d.sign = false)
    (nonzero : d.int ≠ 0) (small : (scale : ℤ) + 2 ≤ -Decimal.etiny) (wide : precision + 2 ≤ Decimal.prec)
    (negated : d.neg = some d') (debited : cast precision scale d' = some debit)
    (credited : cast precision scale d = some credit) :
    |debit.toRat| = d.toRat ∧ |credit.toRat| = d.toRat ↔ ∃ n : ℤ, d.toRat * 10 ^ scale = n := by
  have power : (0 : ℚ) < 10 ^ scale := by positivity
  have number : d.toRat = d.magnitude := by simp [Decimal.toRat, positive]
  have size : ∀ n : Numeric precision scale, |n.toRat| = |(n.unscaled : ℚ)| / 10 ^ scale := by
    intro n
    rw [toRat, abs_div, abs_of_pos power]
  rw [size, size, number]
  constructor
  · intro same
    refine ⟨|credit.unscaled|, ?_⟩
    rw [← same.2, div_mul_cancel₀ _ power.ne', Int.cast_abs]
  · intro whole
    obtain ⟨n, units⟩ := whole
    have fine := fine_of_cast positive nonzero small wide negated debited
    have kept := rounded_of_units (by omega : d.expMin ≤ -(scale : ℤ)) units
    have debit_eq := cast_neg_unscaled positive nonzero negated debited
    have credit_eq := cast_pos_unscaled positive credited
    rw [kept, units, round_intCast] at debit_eq
    rw [units, round_intCast] at credit_eq
    have nonneg : (0 : ℚ) ≤ n := units ▸ mul_nonneg d.magnitude_nonneg power.le
    have whole : (n : ℚ) / 10 ^ scale = d.magnitude := by
      rw [← units, mul_div_cancel_right₀ _ power.ne']
    rw [debit_eq, credit_eq, Int.cast_neg, abs_neg, abs_of_nonneg nonneg]
    exact ⟨whole, whole⟩

/-- Neither of the two stored values is zero exactly when the amount is at least half a unit of the column. -/
theorem nonzero_iff {d d' : Decimal} {debit credit : Numeric precision scale} (positive : d.sign = false)
    (nonzero : d.int ≠ 0) (small : (scale : ℤ) + 2 ≤ -Decimal.etiny) (wide : precision + 2 ≤ Decimal.prec)
    (negated : d.neg = some d') (debited : cast precision scale d' = some debit)
    (credited : cast precision scale d = some credit) :
    debit.unscaled ≠ 0 ∧ credit.unscaled ≠ 0 ↔ 1 / (2 * 10 ^ scale) ≤ d.magnitude := by
  have power : (0 : ℚ) < 10 ^ scale := by positivity
  have reaches : ∀ q : ℚ, 1 ≤ round (q * 10 ^ scale) ↔ 1 / (2 * 10 ^ scale) ≤ q := by
    intro q
    rw [round_eq, Int.le_floor, div_le_iff₀ (by positivity)]
    push_cast
    constructor <;> intro le <;> linarith
  have credit_eq := cast_pos_unscaled positive credited
  constructor
  · intro kept
    apply (reaches d.magnitude).1
    have nonneg := cast_pos_nonneg positive credited
    have other := kept.2
    omega
  · intro half
    -- half a unit is a multiple of the unit the context keeps, so that rounding does not fall below it
    obtain ⟨m, _, multiple⟩ := half_multiple (k := 0) (fine_of_cast positive nonzero small wide negated debited)
    have unit : (1 / (2 * 10 ^ scale) : ℚ) = m * d.ulp := by simpa using multiple
    have rounded : 1 / (2 * 10 ^ scale) ≤ d.rounded := by
      rw [unit] at half ⊢
      exact Decimal.le_rounded half
    have debit_eq := cast_neg_unscaled positive nonzero negated debited
    have down := (reaches d.rounded).2 rounded
    have up := (reaches d.magnitude).2 half
    exact ⟨by omega, by omega⟩

end Numeric
