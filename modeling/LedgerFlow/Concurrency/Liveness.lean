import LedgerFlow.Concurrency.Program
import Mathlib.Algebra.Order.BigOperators.Group.Finset

/-! How much a process may still execute, and runs to the end of all processes. -/

namespace Concurrency
variable {L : Language} {α : Type}

namespace Prog

/-- Every way through the program on which all results are `fine` executes this many statements at most. -/
def Within (fine : (s : L.Stmt) → L.Result s → Prop) : Prog L α → ℕ → Prop
  | .ret _, _ => True
  | .raise _, _ => True
  | .call stmt next, n => 0 < n ∧ ∀ result, fine stmt result → (next result).Within fine (n - 1)

variable {fine : (s : L.Stmt) → L.Result s → Prop}

theorem Within.call {stmt : L.Stmt} {next : L.Result stmt → Prog L α} {n : ℕ}
    (rest : ∀ result, fine stmt result → (next result).Within fine n) :
    (Prog.call stmt next).Within fine (n + 1) := by
  refine ⟨Nat.succ_pos n, fun result accepted => ?_⟩
  rw [Nat.add_sub_cancel]
  exact rest result accepted

theorem Within.mono {prog : Prog L α} {m n : ℕ} (within : prog.Within fine m) (more : m ≤ n) :
    prog.Within fine n := by
  induction prog generalizing m n with
  | ret value => trivial
  | raise error => trivial
  | call stmt next ih =>
    have positive := within.1
    refine ⟨by omega, fun result accepted => ?_⟩
    exact ih result (within.2 result accepted) (by omega)

variable {β : Type} {prog : Prog L α} {m n : ℕ}

theorem Within.bind {f : α → Prog L β} (first : prog.Within fine m)
    (second : ∀ value, (f value).Within fine n) : (prog >>= f).Within fine (m + n) := by
  induction prog generalizing m with
  | ret value => exact (second value).mono (Nat.le_add_left n m)
  | raise error => trivial
  | call stmt next ih =>
    have positive := first.1
    refine ⟨by omega, fun result accepted => ?_⟩
    exact (ih result (first.2 result accepted)).mono (by omega)

theorem Within.attempt {handler : L.Error → Prog L α} (first : prog.Within fine m)
    (second : ∀ error, (handler error).Within fine n) : (prog.attempt handler).Within fine (m + n) := by
  induction prog generalizing m with
  | ret value => trivial
  | raise error => exact (second error).mono (Nat.le_add_left n m)
  | call stmt next ih =>
    have positive := first.1
    refine ⟨by omega, fun result accepted => ?_⟩
    exact (ih result (first.2 result accepted)).mono (by omega)

end Prog

namespace Machine
variable {M : Machine L} {ok : State M → Action M → Prop} {w : M.World} {s t : State M} {p : ℕ} {proc : Proc M}
  {bound : M.Request → ℕ} {n : ℕ}

/-- The process has executed no more than its bound, and its program needs no more than what is left of it. -/
def Bounded (fine : (s : L.Stmt) → L.Result s → Prop) (bound : M.Request → ℕ) (proc : Proc M) : Prop :=
  proc.past.length ≤ bound proc.request ∧ proc.rest.Within fine (bound proc.request - proc.past.length)

/-- Where all results are `fine`, no process executes more statements than its body allows. -/
theorem Runs.within {fine : (s : L.Stmt) → L.Result s → Prop}
    (body : ∀ request, (M.body request).Within fine (bound request))
    (execute : ∀ {s p proc choice stmt next result w'}, M.Runs ok (M.initial w) s → s.procs p = some proc →
      proc.rest = .call stmt next → M.exec p stmt choice s.world = some (result, w') → fine stmt result)
    (runs : M.Runs ok (M.initial w) s) : ∀ p proc, s.procs p = some proc → Bounded fine bound proc := by
  induction runs with
  | refl =>
    intro p proc found
    cases found
  | tail runs stepped ih =>
    obtain ⟨a, _, stepped⟩ := stepped
    rcases step_cases stepped with ⟨q, request, rfl, fresh, rfl⟩ |
      ⟨q, choice, before, stmt, rest, result, w', rfl, found, call, executed, rfl⟩ |
      ⟨q, before, rfl, found, running, rfl⟩ | ⟨q, before, rfl, found, finished, rfl⟩ |
        ⟨e, w', rfl, ticked, rfl⟩
    · exact forall_update (Q := Bounded fine bound) ih ⟨Nat.zero_le _, body request⟩
    · apply forall_update (Q := Bounded fine bound) ih
      have within := (ih q before found).2
      rw [call] at within
      have positive := within.1
      have left := within.2 result (execute runs found call executed)
      rw [Nat.sub_sub] at left
      refine ⟨?_, left⟩
      change (_ :: before.past).length ≤ bound before.request
      rw [List.length_cons]
      omega
    · exact forall_update (Q := Bounded fine bound) ih ⟨(ih q before found).1, trivial⟩
    · exact ih
    · exact ih

def quota (bound : M.Request → ℕ) (s : State M) (q : ℕ) : ℕ :=
  match s.procs q with
  | none => 0
  | some proc => bound proc.request - proc.past.length

def left (bound : M.Request → ℕ) (n : ℕ) (s : State M) : ℕ := ∑ q ∈ Finset.range n, quota bound s q

theorem quota_eq (found : s.procs p = some proc) : quota bound s p = bound proc.request - proc.past.length := by
  rw [quota, found]

theorem left_congr (same : t.procs = s.procs) : left bound n t = left bound n s := by
  unfold left quota
  rw [same]

theorem left_le {most : ℕ} (bounded : ∀ request, bound request ≤ most) : left bound n s ≤ n * most := by
  calc left bound n s ≤ ∑ _q ∈ Finset.range n, most := by
        apply Finset.sum_le_sum
        intro q _
        unfold quota
        split
        · exact Nat.zero_le most
        · exact (Nat.sub_le _ _).trans (bounded _)
    _ = n * most := by rw [Finset.sum_const, Finset.card_range, Nat.nsmul_eq_mul]

theorem quota_le_left (bound : M.Request → ℕ) (s : State M) (below : p < n) :
    quota bound s p ≤ left bound n s :=
  Finset.single_le_sum (fun _ _ => Nat.zero_le _) (Finset.mem_range.2 below)

theorem left_lt (bound : M.Request → ℕ) {choice : M.Choice} (stepped : M.step s (.step p choice) = some t)
    (found : s.procs p = some proc)
    (below : p < n) (within : proc.past.length < bound proc.request) : left bound n t < left bound n s := by
  obtain ⟨proc', stmt, next, result, w', found', rest, executed, rfl⟩ := step_own stepped
  cases found.symm.trans found'
  have own : quota bound s p = bound proc.request - proc.past.length := quota_eq found
  have after : quota bound (M := M) ⟨w', Function.update s.procs p
      (some { proc with past := (stmt, s.world) :: proc.past, rest := next result })⟩ p =
        bound proc.request - (proc.past.length + 1) := by
    rw [quota_eq (Function.update_self ..)]
    rfl
  apply Finset.sum_lt_sum
  · intro q _
    by_cases same : q = p
    · subst same
      omega
    · simp only [quota, Function.update_of_ne same, le_refl]
  · exact ⟨p, Finset.mem_range.2 below, by omega⟩

theorem Runs.finite (runs : M.Runs ok (M.initial w) s) : ∃ n, ∀ q, n ≤ q → s.procs q = none := by
  induction runs with
  | refl => exact ⟨0, fun _ _ => rfl⟩
  | tail _ stepped ih =>
    obtain ⟨a, _, stepped⟩ := stepped
    obtain ⟨n, idle⟩ := ih
    by_cases starts : ∃ p request, a = .start p request
    · obtain ⟨p, request, rfl⟩ := starts
      refine ⟨max n (p + 1), fun q beyond => ?_⟩
      apply procs_of_step stepped (idle q (by omega))
      intro request' same
      cases same
      omega
    · refine ⟨n, fun q beyond => procs_of_step stepped (idle q beyond) fun request same => ?_⟩
      exact starts ⟨q, request, same⟩

theorem closes (I : M.World → Prop) (Free : ℕ → M.World → Prop) (kept : ∀ p w, I w → I (M.close p w))
    (own : ∀ p w, Free p (M.close p w)) (still : ∀ p q w, Free q w → Free q (M.close p w)) (s : State M)
    (holds : I s.world)
    (n : ℕ) : ∃ t, M.Runs (fun _ a => ∃ p, a = .close p) s t ∧ t.procs = s.procs ∧ I t.world ∧
      ∀ q < n, ∀ proc, s.procs q = some proc → proc.rest.Finished → Free q t.world := by
  induction n with
  | zero => exact ⟨s, .refl, rfl, holds, fun q below => absurd below (Nat.not_lt_zero q)⟩
  | succ n ih =>
    obtain ⟨t, runs, procs, holds, free⟩ := ih
    by_cases ended : ∃ proc, s.procs n = some proc ∧ proc.rest.Finished
    · obtain ⟨proc, found, finished⟩ := ended
      have stepped : M.step t (.close n) = some { t with world := M.close n t.world } := by
        rw [← procs] at found
        simp only [Machine.step, found, if_pos finished]
      refine ⟨_, runs.tail ⟨.close n, ⟨n, rfl⟩, stepped⟩, procs, kept n _ holds, ?_⟩
      intro q below proc found finished
      rcases Nat.lt_succ_iff_lt_or_eq.1 below with earlier | same
      · exact still n q _ (free q earlier proc found finished)
      · subst same
        exact own q _
    · refine ⟨t, runs, procs, holds, ?_⟩
      intro q below proc found finished
      rcases Nat.lt_succ_iff_lt_or_eq.1 below with earlier | same
      · exact free q earlier proc found finished
      · subst same
        exact absurd ⟨proc, found, finished⟩ ended

/-- Where everything can be brought nearer to the end, it can be brought to its end. -/
theorem completes {I : State M → Prop} {done : State M → Prop} (measure : State M → ℕ)
    (nearer : ∀ s, I s → ¬done s → ∃ t, M.Runs ok s t ∧ I t ∧ measure t < measure s)
    (s : State M) (holds : I s) :
    ∃ t, M.Runs ok s t ∧ I t ∧ done t := by
  induction size : measure s using Nat.strong_induction_on generalizing s with
  | _ size ih =>
    by_cases finished : done s
    · exact ⟨s, .refl, holds, finished⟩
    · obtain ⟨u, first, holds, less⟩ := nearer s holds finished
      obtain ⟨t, second, ended⟩ := ih (measure u) (by omega) u holds rfl
      exact ⟨t, first.trans second, ended⟩

end Machine
end Concurrency
