import LedgerFlow.Concurrency.Liveness

/-! Fair runs: they have no end, and pass no process over for ever. -/

namespace Concurrency
namespace Machine
variable {L : Language} {M : Machine L} {ok : State M → Action M → Prop} {path : ℕ → State M}
  {actions : ℕ → Action M} {s t : State M} {w : M.World} {p n : ℕ}

/-- From some time on no process starts. A process that can execute its next statement from some time on executes it,
and the session of a finished process ends. -/
structure Fair (M : Machine L) (ok : State M → Action M → Prop) (path : ℕ → State M)
    (actions : ℕ → Action M) : Prop where
  allowed : ∀ n, ok (path n) (actions n)
  steps : ∀ n, M.step (path n) (actions n) = some (path (n + 1))
  last : ∃ n, ∀ m, n ≤ m → ∀ p request, actions m ≠ .start p request
  executes : ∀ n p, (∀ m, n ≤ m → ∃ choice t, M.step (path m) (.step p choice) = some t) →
    ∃ m choice, n ≤ m ∧ actions m = .step p choice
  closes : ∀ n p proc, (path n).procs p = some proc → proc.rest.Finished → ∃ m, n ≤ m ∧
      actions m = .close p

namespace Fair

theorem mono {ok' : State M → Action M → Prop} (fair : M.Fair ok path actions)
    (more : ∀ s a, ok s a → ok' s a) : M.Fair ok' path actions :=
  { fair with allowed := fun n => more _ _ (fair.allowed n) }

theorem runs (fair : M.Fair ok path actions) (n : ℕ) : M.Runs ok (path 0) (path n) := by
  induction n with
  | zero => exact .refl
  | succ n ih => exact ih.tail ⟨actions n, fair.allowed n, fair.steps n⟩

theorem settles (fair : M.Fair ok path actions) (started : M.Runs ok (M.initial w) (path 0)) :
    ∃ last n, (∀ q, n ≤ q → (path last).procs q = none) ∧ ∀ m, last ≤ m →
    (path m).procs = (path last).procs := by
  obtain ⟨first, none⟩ := fair.last
  obtain ⟨n, idle⟩ := Runs.finite (started.trans (fair.runs first))
  have unstarted : ∀ m, first ≤ m → ∀ q, n ≤ q → (path m).procs q = Option.none := by
    intro m later q beyond
    induction later with
    | refl => exact idle q beyond
    | step later ih => exact procs_of_step (fair.steps _) ih fun request => none _ later q request
  -- one process after the other comes to rest
  have below : ∀ k, k ≤ n → ∃ last, first ≤ last ∧ ∀ m, last ≤ m → ∀ q < k,
      (path m).procs q = (path last).procs q := by
    intro k
    induction k with
    | zero => exact fun _ => ⟨first, Nat.le_refl first, fun _ _ q none => absurd none (Nat.not_lt_zero q)⟩
    | succ k ih =>
      intro within
      obtain ⟨last, later, still⟩ := ih (by omega)
      have rest : ∃ settled, last ≤ settled ∧ ∀ m, settled ≤ m →
          (path m).procs k = (path settled).procs k := by
        by_cases starts : ∃ m, last ≤ m ∧ ((path m).procs k).isSome
        · obtain ⟨m, beyond, some⟩ := starts
          obtain ⟨proc, found⟩ := Option.isSome_iff_exists.1 some
          obtain ⟨settled, final, after, stays⟩ := Machine.settles (fun n => ⟨actions n, fair.steps n⟩) found
          exact ⟨settled, by omega, fun m beyond => by rw [stays m beyond, stays settled (Nat.le_refl settled)]⟩
        · refine ⟨last, Nat.le_refl last, fun m beyond => ?_⟩
          have absent : ∀ m, last ≤ m → (path m).procs k = Option.none := by
            intro m beyond
            by_contra some
            exact starts ⟨m, beyond, Option.isSome_iff_ne_none.2 some⟩
          rw [absent m beyond, absent last (Nat.le_refl last)]
      obtain ⟨settled, beyond, stays⟩ := rest
      refine ⟨settled, by omega, fun m after q within => ?_⟩
      rcases Nat.lt_succ_iff_lt_or_eq.1 within with earlier | rfl
      · rw [still m (by omega) q earlier, still settled beyond q earlier]
      · exact stays m after
  obtain ⟨last, later, still⟩ := below n (Nat.le_refl n)
  refine ⟨last, n, unstarted last later, fun m beyond => funext fun q => ?_⟩
  by_cases within : q < n
  · exact still m beyond q within
  · rw [unstarted m (by omega) q (by omega), unstarted last later q (by omega)]

theorem frees (fair : M.Fair ok path actions) {Free : ℕ → M.World → Prop}
    (closed : ∀ p w, Free p (M.close p w))
    (stays : ∀ n p proc, (path n).procs p = some proc → proc.rest.Finished → Free p (path n).world →
      Free p (path (n + 1)).world)
    {last : ℕ} (idle : ∀ q, n ≤ q → (path last).procs q = none)
    (still : ∀ m, last ≤ m → (path m).procs = (path last).procs) : ∃ freed, last ≤ freed ∧
    ∀ m, freed ≤ m →
      ∀ p proc, (path last).procs p = some proc → proc.rest.Finished → Free p (path m).world := by
  have below : ∀ k, ∃ freed, last ≤ freed ∧ ∀ m, freed ≤ m → ∀ p < k, ∀ proc,
      (path last).procs p = some proc → proc.rest.Finished → Free p (path m).world := by
    intro k
    induction k with
    | zero => exact ⟨last, Nat.le_refl last, fun _ _ p none => absurd none (Nat.not_lt_zero p)⟩
    | succ k ih =>
      obtain ⟨freed, later, free⟩ := ih
      by_cases ended : ∃ proc, (path last).procs k = some proc ∧ proc.rest.Finished
      · obtain ⟨proc, found, finished⟩ := ended
        obtain ⟨m, beyond, closes⟩ := fair.closes last k proc found finished
        have stepped := fair.steps m
        rw [closes] at stepped
        obtain ⟨_, _, _, reached⟩ := step_close stepped
        have own : ∀ i, m + 1 ≤ i → Free k (path i).world := by
          intro i after
          induction after with
          | refl =>
            rw [reached]
            exact closed k _
          | @step j after kept =>
            have final := still j (beyond.trans ((Nat.le_succ m).trans after))
            exact stays j k proc (final ▸ found) finished kept
        refine ⟨max freed (m + 1), by omega, fun i after p within other found' finished' => ?_⟩
        rcases Nat.lt_succ_iff_lt_or_eq.1 within with earlier | rfl
        · exact free i (by omega) p earlier other found' finished'
        · exact own i (by omega)
      · refine ⟨freed, later, fun i after p within other found' finished' => ?_⟩
        rcases Nat.lt_succ_iff_lt_or_eq.1 within with earlier | rfl
        · exact free i after p earlier other found' finished'
        · exact absurd ⟨other, found', finished'⟩ ended
  obtain ⟨freed, later, free⟩ := below n
  refine ⟨freed, later, fun m after p proc found => free m after p ?_ proc found⟩
  by_contra beyond
  cases found.symm.trans (idle p (Nat.le_of_not_lt beyond))

/-- Where one of the processes in progress can go on as soon as nothing else does, all processes end. -/
theorem ends (fair : M.Fair ok path actions) (started : M.Runs ok (M.initial w) (path 0))
    {Free : ℕ → M.World → Prop} (closed : ∀ p w, Free p (M.close p w))
    (stays : ∀ n p proc, (path n).procs p = some proc → proc.rest.Finished → Free p (path n).world →
      Free p (path (n + 1)).world)
    (moves : ∀ n, (∀ m, n ≤ m → (path m).procs = (path n).procs) →
      (∀ p proc, (path n).procs p = some proc → proc.rest.Finished → Free p (path n).world) →
      ∀ p proc, (path n).procs p = some proc → ¬proc.rest.Finished →
        ∃ q, ∀ m, n ≤ m → ∃ choice t, M.step (path m) (.step q choice) = some t) :
    ∃ n, ∀ p proc, (path n).procs p = some proc → proc.rest.Finished := by
  obtain ⟨last, n, idle, still⟩ := fair.settles started
  obtain ⟨freed, later, free⟩ := fair.frees closed stays idle still
  have same := still freed later
  refine ⟨freed, fun p proc found => by_contra fun running => ?_⟩
  have resting : ∀ m, freed ≤ m → (path m).procs = (path freed).procs := fun m beyond => by
    rw [still m (by omega), same]
  obtain ⟨q, enabled⟩ := moves freed resting
    (fun r other found' finished => free freed (Nat.le_refl freed) r other (same ▸ found') finished) p
      proc found running
  obtain ⟨m, choice, beyond, goes⟩ := fair.executes freed q enabled
  have stepped := fair.steps m
  rw [goes] at stepped
  obtain ⟨before, stmt, _, _, _, found', _, _, reached⟩ := step_own stepped
  -- the statement is one more in the past of the process, which has come to rest
  have after := congrFun ((resting (m + 1) (by omega)).trans (resting m beyond).symm) q
  rw [found', reached] at after
  simp only [Function.update_self, Option.some.injEq] at after
  have longer := congrArg (fun proc => proc.past.length) after
  simp at longer

end Fair

def HasFair (M : Machine L) (ok : State M → Action M → Prop) (s : State M) : Prop :=
  ∃ path actions, path 0 = s ∧ M.Fair ok path actions

theorem HasFair.of_step {a : Action M} (fair : M.HasFair ok t) (allowed : ok s a) (stepped : M.step s a = some t) :
    M.HasFair ok s := by
  obtain ⟨path, actions, start, fair⟩ := fair
  refine ⟨fun n => n.casesOn s path, fun n => n.casesOn a actions, rfl, ?_, ?_, ?_, ?_, ?_⟩
  · intro n
    cases n with
    | zero => exact allowed
    | succ n => exact fair.allowed n
  · intro n
    cases n with
    | zero =>
      rw [← start] at stepped
      exact stepped
    | succ n => exact fair.steps n
  · obtain ⟨n, none⟩ := fair.last
    refine ⟨n + 1, fun m later p request => ?_⟩
    cases m with
    | zero => omega
    | succ m => exact none m (by omega) p request
  · intro n p enabled
    obtain ⟨m, choice, later, goes⟩ := fair.executes n p fun m later => enabled (m + 1) (by omega)
    exact ⟨m + 1, choice, by omega, goes⟩
  · intro n p proc found finished
    cases n with
    | zero =>
      have found' : (path 0).procs p = some proc := by
        rw [start]
        rcases rest_cases stepped found with same | ⟨_, _, running, _⟩
        · exact same
        · exact absurd finished running
      obtain ⟨m, later, closes⟩ := fair.closes 0 p proc found' finished
      exact ⟨m + 1, by omega, closes⟩
    | succ n =>
      obtain ⟨m, later, closes⟩ := fair.closes n p proc found finished
      exact ⟨m + 1, by omega, closes⟩

theorem HasFair.of_runs (fair : M.HasFair ok t) (runs : M.Runs ok s t) : M.HasFair ok s := by
  induction runs using Relation.ReflTransGen.head_induction_on with
  | refl => exact fair
  | head stepped _ ih =>
    obtain ⟨a, allowed, stepped⟩ := stepped
    exact ih.of_step allowed stepped

theorem HasFair.of_finished (permits : ∀ s p, ok s (.close p)) (idle : ∀ q, n ≤ q → s.procs q = none)
    (asked : (s.procs p).isSome) (finished : ∀ q proc, s.procs q = some proc → proc.rest.Finished) :
    M.HasFair ok s := by
  let turn : ℕ → ℕ := fun k => if (s.procs (k % n)).isSome then k % n else p
  let world : ℕ → M.World := fun k => Nat.rec s.world (fun k w => M.close (turn k) w) k
  refine ⟨fun k => ⟨world k, s.procs⟩, fun k => .close (turn k), rfl, fun k => permits _ _,
    fun k => ?_, ?_, ?_, ?_⟩
  · obtain ⟨proc, found⟩ : ∃ proc, s.procs (turn k) = some proc := by
      apply Option.isSome_iff_exists.1
      by_cases started : (s.procs (k % n)).isSome
      · simpa only [turn, if_pos started] using started
      · simpa only [turn, if_neg started] using asked
    simp only [Machine.step, found, if_pos (finished _ _ found)]
    rfl
  · refine ⟨0, fun _ _ _ _ same => ?_⟩
    cases same
  · intro k q enabled
    obtain ⟨choice, t, stepped⟩ := enabled k (Nat.le_refl k)
    obtain ⟨proc, stmt, next, _, _, found, rest, _, _⟩ := step_own stepped
    have ended := finished q proc found
    rw [rest] at ended
    exact absurd ended id
  · intro k q proc found _
    have below : q < n := by
      by_contra beyond
      cases found.symm.trans (idle q (by omega))
    have own : (n * k + q) % n = q := by rw [Nat.mul_add_mod, Nat.mod_eq_of_lt below]
    refine ⟨n * k + q, ?_, ?_⟩
    · have more := Nat.le_mul_of_pos_left k (Nat.zero_lt_of_lt below)
      omega
    · have started : (s.procs ((n * k + q) % n)).isSome := by
        rw [own, found]
        rfl
      simp only [turn, if_pos started, own]

end Machine
end Concurrency
