import Mathlib.Algebra.BigOperators.Group.List.Basic
import Mathlib.Algebra.Ring.Int.Defs

/-! Balances that are kept in columns of a limited size, while changes are added to them one after the other. -/

namespace LedgerFlow.Capacity
variable {K : Type} [DecidableEq K] {limit : ℕ} {balance : K → ℤ} {change : K × ℤ}
  {changes : List (K × ℤ)}

def total (changes : List (K × ℤ)) (k : K) : ℤ :=
  (changes.map fun change => if change.1 = k then change.2 else 0).sum

/-- Each change fits the column, and so does every balance after any number of changes. -/
structure Fits (limit : ℕ) (balance : K → ℤ) (changes : List (K × ℤ)) : Prop where
  each : ∀ change ∈ changes, change.2.natAbs < limit
  running : ∀ n k, (balance k + total (changes.take n) k).natAbs < limit

def add (balance : K → ℤ) (change : K × ℤ) (k : K) : ℤ := balance k + if change.1 = k then change.2 else 0

@[simp] theorem total_nil (k : K) : total [] k = 0 := rfl

theorem add_total (changes : List (K × ℤ)) (k : K) :
    balance k + total (change :: changes) k = add balance change k + total changes k := by
  simp only [total, add, List.map_cons, List.sum_cons]
  omega

theorem fits_nil : Fits limit balance [] ↔ ∀ k, (balance k).natAbs < limit := by
  constructor
  · intro fits k
    simpa using fits.running 0 k
  · intro small
    refine ⟨fun _ absurd => (List.not_mem_nil absurd).elim, fun n k => ?_⟩
    simpa using small k

theorem fits_cons (small : ∀ k, (balance k).natAbs < limit) : Fits limit balance (change :: changes) ↔
    change.2.natAbs < limit ∧ (balance change.1 + change.2).natAbs < limit ∧
    Fits limit (add balance change) changes := by
  constructor
  · intro fits
    have later : ∀ n k, (add balance change k + total (changes.take n) k).natAbs < limit := by
      intro n k
      rw [← add_total, ← List.take_succ_cons]
      exact fits.running (n + 1) k
    refine ⟨fits.each change List.mem_cons_self, ?_, fun other member =>
      fits.each other (List.mem_cons_of_mem _ member), later⟩
    simpa [add] using later 0 change.1
  · rintro ⟨own, _, fits⟩
    refine ⟨?_, fun n k => ?_⟩
    · rw [List.forall_mem_cons]
      exact ⟨own, fits.each⟩
    · cases n with
      | zero => simpa using small k
      | succ n =>
        rw [List.take_succ_cons, add_total]
        exact fits.running n k

end LedgerFlow.Capacity
