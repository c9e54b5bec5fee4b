import LedgerFlow.Concurrency.Program

/-! What a run has executed, and protocols: the phase of a process is what its executed statements and their
results have made of it, and decides which statements may come next. -/

namespace Concurrency
variable {L : Language} {M : Machine L}

structure Executed (L : Language) where
  process : Nat
  stmt : L.Stmt
  result : L.Result stmt

namespace Machine

def executed (M : Machine L) (s : State M) : Action M → Option (Executed L)
  | .step p choice =>
    match s.procs p with
    | none => none
    | some proc =>
      match proc.rest with
      | .ret _ => none
      | .raise _ => none
      | .call stmt _ => (M.exec p stmt choice s.world).map fun outcome => ⟨p, stmt, outcome.1⟩
  | _ => none

/-- The runs all of whose steps `ok` allows, with what they have executed, newest first. -/
inductive Traces (M : Machine L) (ok : State M → Action M → Prop) (s : State M) : List (Executed L) →
    State M → Prop where
  | refl : Traces M ok s [] s
  | tail {trace : List (Executed L)} {t u : State M} {a : Action M} (run : Traces M ok s trace t) (allowed : ok t a)
      (stepped : M.step t a = some u) : Traces M ok s ((M.executed t a).toList ++ trace) u

/-- The runs all of whose steps `ok` allows, with how many of their steps are `counted`. -/
inductive Tally (M : Machine L) (ok : State M → Action M → Prop)
    (counted : State M → Action M → Bool) (s : State M) : Nat → State M → Prop where
  | refl : Tally M ok counted s 0 s
  | tail {n : Nat} {t u : State M} {a : Action M} (run : Tally M ok counted s n t) (allowed : ok t a)
      (stepped : M.step t a = some u) : Tally M ok counted s (n + (counted t a).toNat) u

def count (M : Machine L) (allow counted : State M → Action M → Bool) (n : Nat) (s : State M) :
    List (Action M) → Option (Nat × State M)
  | [] => some (n, s)
  | a :: rest =>
    match allow s a, M.step s a with
    | true, some t => count M allow counted (n + (counted s a).toNat) t rest
    | _, _ => none

def Returns (M : Machine L) (stmt : L.Stmt) (result : L.Result stmt) : Prop :=
  ∃ p choice w w', M.exec p stmt choice w = some (result, w')

theorem executed_step {s : State M} {p : Nat} {choice : M.Choice} {proc : Proc M} {stmt : L.Stmt}
    {next : L.Result stmt → Prog L M.Value} {result : L.Result stmt} {w : M.World} (found : s.procs p = some proc)
    (rest : proc.rest = .call stmt next) (execution : M.exec p stmt choice s.world = some (result, w)) :
    M.executed s (.step p choice) = some ⟨p, stmt, result⟩ := by
  obtain ⟨request, started, past, rest'⟩ := proc
  subst rest
  simp [executed, found, execution]

variable {ok : State M → Action M → Prop} {s t : State M} {trace : List (Executed L)}

theorem Traces.runs (traces : M.Traces ok s trace t) : M.Runs ok s t := by
  induction traces with
  | refl => exact .refl
  | tail _ allowed stepped ih => exact ih.tail ⟨_, allowed, stepped⟩

theorem Tally.runs {counted : State M → Action M → Bool} {n : Nat} (tally : M.Tally ok counted s n t) :
    M.Runs ok s t := by
  induction tally with
  | refl => exact .refl
  | tail _ allowed stepped ih => exact ih.tail ⟨_, allowed, stepped⟩

theorem Tally.of_count {allow counted : State M → Action M → Bool} {n k : Nat} {u : State M}
    {actions : List (Action M)} (allowed : ∀ s a, allow s a → ok s a) (tally : M.Tally ok counted s n t)
    (executed : M.count allow counted n t actions = some (k, u)) : M.Tally ok counted s k u := by
  induction actions generalizing n t with
  | nil =>
    cases executed
    exact tally
  | cons a rest ih =>
    simp only [count] at executed
    split at executed
    · rename_i next permitted stepped
      exact ih (tally.tail (allowed t a permitted) stepped) executed
    · cases executed

theorem Runs.traces (runs : M.Runs ok s t) : ∃ trace, M.Traces ok s trace t := by
  induction runs with
  | refl => exact ⟨[], .refl⟩
  | tail _ stepped ih =>
    obtain ⟨a, allowed, stepped⟩ := stepped
    obtain ⟨trace, traces⟩ := ih
    exact ⟨_, traces.tail allowed stepped⟩

end Machine

/-- A protocol between the processes of a machine: the phase in which a process starts, what an executed statement
makes of the phase, and the statements a process may execute in it. -/
structure Protocol (M : Machine L) (Phase : Type) where
  start : Phase
  after : Phase → (stmt : L.Stmt) → L.Result stmt → Phase
  allowed : M.Request → Phase → L.Stmt → Prop

namespace Protocol
variable {Phase : Type} (P : Protocol M Phase)

def phase (p : Nat) : List (Executed L) → Phase
  | [] => P.start
  | e :: trace => if e.process = p then P.after (phase p trace) e.stmt e.result else phase p trace

/-- From the phase on, every statement of the program is allowed when its turn comes; a
returned value is in `Q`, and an error in `E`. -/
def Follows (request : M.Request) {α : Type} (Q : Phase → α → Prop) (E : Phase → L.Error → Prop) :
    Phase → Prog L α → Prop
  | φ, .ret value => Q φ value
  | φ, .raise error => E φ error
  | φ, .call stmt next => P.allowed request φ stmt ∧
    ∀ result, M.Returns stmt result → Follows request Q E (P.after φ stmt result) (next result)

variable {P}

namespace Follows
variable {request : M.Request} {α β : Type} {Q Q' : Phase → α → Prop} {R : Phase → β → Prop}
  {E F : Phase → L.Error → Prop} {φ : Phase}

theorem bind {prog : Prog L α} {f : α → Prog L β} (first : P.Follows request Q E φ prog)
    (second : ∀ φ value, Q φ value → P.Follows request R E φ (f value)) :
    P.Follows request R E φ (prog >>= f) := by
  induction prog generalizing φ with
  | ret value => exact second φ value first
  | raise error => exact first
  | call stmt next ih => exact ⟨first.1, fun result returned => ih result (first.2 result returned)⟩

theorem attempt {prog : Prog L α} {handler : L.Error → Prog L α} (first : P.Follows request Q F φ prog)
    (second : ∀ φ error, F φ error → P.Follows request Q E φ (handler error)) :
    P.Follows request Q E φ (prog.attempt handler) := by
  induction prog generalizing φ with
  | ret value => exact first
  | raise error => exact second φ error first
  | call stmt next ih => exact ⟨first.1, fun result returned => ih result (first.2 result returned)⟩

theorem weaken {prog : Prog L α} (follows : P.Follows request Q E φ prog)
    (values : ∀ φ value, Q φ value → Q' φ value)
    (errors : ∀ φ error, E φ error → F φ error) : P.Follows request Q' F φ prog := by
  induction prog generalizing φ with
  | ret value => exact values φ value follows
  | raise error => exact errors φ error follows
  | call stmt next ih => exact ⟨follows.1, fun result returned => ih result (follows.2 result returned)⟩

theorem free (allowed : ∀ φ stmt, P.allowed request φ stmt) (values : ∀ φ value, Q φ value)
    (errors : ∀ φ error, E φ error) (φ : Phase) (prog : Prog L α) : P.Follows request Q E φ prog := by
  induction prog generalizing φ with
  | ret value => exact values φ value
  | raise error => exact errors φ error
  | call stmt next ih => exact ⟨allowed φ stmt, fun result _ => ih result _⟩

end Follows

section Runs
variable {ok : State M → Action M → Prop} {Φ : M.Request → Prop} {Q : M.Request → Phase → M.Value → Prop}
  {E : M.Request → Phase → L.Error → Prop} {w : M.World} {s t : State M}
    {trace : List (Executed L)} {a : Action M}

theorem phase_of_executed {e : Executed L} (executed : M.executed s a = some e) {p : Nat} :
    P.phase p ((M.executed s a).toList ++ trace) =
      if e.process = p then P.after (P.phase p trace) e.stmt e.result else P.phase p trace := by
  rw [executed]
  rfl

theorem phase_of_own {p : Nat} {choice : M.Choice} {proc : Proc M} {stmt : L.Stmt}
    {next : L.Result stmt → Prog L M.Value}
    {result : L.Result stmt} {w' : M.World} (found : s.procs p = some proc) (rest : proc.rest = .call stmt next)
    (executed : M.exec p stmt choice s.world = some (result, w')) :
    P.phase p ((M.executed s (.step p choice)).toList ++ trace) = P.after (P.phase p trace) stmt result :=
  (phase_of_executed (Machine.executed_step found rest executed)).trans (if_pos rfl)

theorem phase_of_other {p : Nat} (other : ∀ choice, a ≠ .step p choice) :
    P.phase p ((M.executed s a).toList ++ trace) = P.phase p trace := by
  cases a with
  | step q choice =>
    have different : q ≠ p := fun same => other choice (by rw [same])
    cases executed : M.executed s (.step q choice) with
    | none => rfl
    | some e =>
      have process : e.process = q := by
        simp only [Machine.executed] at executed
        split at executed
        · cases executed
        · split at executed
          · cases executed
          · cases executed
          · obtain ⟨_, _, rfl⟩ := Option.map_eq_some_iff.1 executed
            rfl
      exact if_neg (process ▸ different)
  | _ => rfl

theorem phase_of_idle (traces : M.Traces ok (M.initial w) trace s) {p : Nat} (idle : s.procs p = none) :
    P.phase p trace = P.start := by
  induction traces with
  | refl => rfl
  | @tail trace s t a run _ stepped ih =>
    have before : s.procs p = none := by
      cases found : s.procs p with
      | none => rfl
      | some proc =>
        rcases Machine.rest_cases stepped found with same | ⟨after, same, _⟩ <;> cases idle.symm.trans same
    have other : ∀ choice, a ≠ .step p choice := by
      rintro choice rfl
      simp [Machine.step, before] at stepped
    rw [phase_of_other other, ih before]

theorem follows_of_traces (admits : ∀ s p request, ok s (.start p request) → Φ request)
    (body : ∀ request, Φ request → P.Follows request (Q request) (E request) P.start (M.body request))
    (failed : ∀ {request} φ, E request φ M.failure)
    (traces : M.Traces ok (M.initial w) trace s) {p : Nat} {proc : Proc M} (found : s.procs p = some proc) :
    P.Follows proc.request (Q proc.request) (E proc.request) (P.phase p trace) proc.rest := by
  induction traces generalizing p proc with
  | refl => cases found
  | @tail trace s t a run allowed stepped ih =>
    rcases Machine.step_cases stepped with ⟨q, request, rfl, fresh, rfl⟩ |
      ⟨q, choice, before, stmt, next, result, w', rfl, found', rest, executed, rfl⟩ |
      ⟨q, before, rfl, found', running, rfl⟩ | ⟨q, before, rfl, found', finished, rfl⟩ |
        ⟨e, w', rfl, ticked, rfl⟩
    · rcases Machine.found_update found with ⟨rfl, rfl⟩ | ⟨_, found⟩
      · rw [phase_of_other (fun _ absurd => by cases absurd), phase_of_idle run fresh]
        exact body request (admits _ _ _ allowed)
      · exact ih found
    · rw [phase_of_executed (Machine.executed_step found' rest executed)]
      rcases Machine.found_update found with ⟨rfl, rfl⟩ | ⟨other, found⟩
      · have follows := ih found'
        rw [rest] at follows
        rw [if_pos rfl]
        exact follows.2 result ⟨_, _, _, _, executed⟩
      · rw [if_neg (Ne.symm other)]
        exact ih found
    · rcases Machine.found_update found with ⟨rfl, rfl⟩ | ⟨_, found⟩
      · exact failed _
      · exact ih found
    · exact ih found
    · exact ih found

theorem last_of_traces (admits : ∀ s p request, ok s (.start p request) → Φ request)
    (body : ∀ request, Φ request → P.Follows request (Q request) (E request) P.start (M.body request))
    (failed : ∀ {request} φ, E request φ M.failure)
    (traces : M.Traces ok (M.initial w) trace s) {p : Nat} {proc : Proc M}
    (found : s.procs p = some proc) {stmt : L.Stmt}
    {w' : M.World} {earlier : List (L.Stmt × M.World)} (latest : proc.past = (stmt, w') :: earlier) :
    ∃ φ result, P.allowed proc.request φ stmt ∧ P.phase p trace = P.after φ stmt result := by
  induction traces generalizing p proc with
  | refl => cases found
  | @tail trace s t a run allowed stepped ih =>
    rcases Machine.step_cases stepped with ⟨q, request, rfl, fresh, rfl⟩ |
      ⟨q, choice, before, stmt, next, result, w', rfl, found', rest, executed, rfl⟩ |
      ⟨q, before, rfl, found', running, rfl⟩ | ⟨q, before, rfl, found', finished, rfl⟩ |
        ⟨e, w', rfl, ticked, rfl⟩
    · rcases Machine.found_update found with ⟨rfl, rfl⟩ | ⟨_, found⟩
      · cases latest
      · exact ih found latest
    · rw [phase_of_executed (Machine.executed_step found' rest executed)]
      rcases Machine.found_update found with ⟨rfl, rfl⟩ | ⟨other, found⟩
      · have follows := follows_of_traces admits body failed run found'
        rw [rest] at follows
        cases latest
        exact ⟨_, result, follows.1, if_pos rfl⟩
      · rw [if_neg (Ne.symm other)]
        exact ih found latest
    · rcases Machine.found_update found with ⟨rfl, rfl⟩ | ⟨_, found⟩
      · have held := ih found'
        exact held latest
      · exact ih found latest
    · exact ih found latest
    · exact ih found latest

theorem records_of_traces {R : M.Request → Phase → List (L.Stmt × M.World) → Prop}
    (start : ∀ request, R request P.start [])
    (own : ∀ {trace s p proc choice stmt next result w'}, M.Traces ok (M.initial w) trace s →
      ok s (.step p choice) →
      s.procs p = some proc → proc.rest = .call stmt next → M.exec p stmt choice s.world = some (result, w') →
      R proc.request (P.phase p trace) proc.past →
      R proc.request (P.after (P.phase p trace) stmt result) ((stmt, s.world) :: proc.past))
    (traces : M.Traces ok (M.initial w) trace s) {p : Nat} {proc : Proc M} (found : s.procs p = some proc) :
    R proc.request (P.phase p trace) proc.past := by
  induction traces generalizing p proc with
  | refl => cases found
  | @tail trace s t a run allowed stepped ih =>
    rcases Machine.step_cases stepped with ⟨q, request, rfl, fresh, rfl⟩ |
      ⟨q, choice, before, stmt, next, result, w', rfl, found', rest, executed, rfl⟩ |
      ⟨q, before, rfl, found', running, rfl⟩ | ⟨q, before, rfl, found', finished, rfl⟩ |
        ⟨e, w', rfl, ticked, rfl⟩
    · rcases Machine.found_update found with ⟨rfl, rfl⟩ | ⟨_, found⟩
      · rw [phase_of_other (fun _ absurd => by cases absurd), phase_of_idle run fresh]
        exact start request
      · exact ih found
    · rw [phase_of_executed (Machine.executed_step found' rest executed)]
      rcases Machine.found_update found with ⟨rfl, rfl⟩ | ⟨other, found⟩
      · have held := own run allowed found' rest executed (ih found')
        rw [if_pos rfl]
        exact held
      · rw [if_neg (Ne.symm other)]
        exact ih found
    · rcases Machine.found_update found with ⟨rfl, rfl⟩ | ⟨_, found⟩
      · have held := ih found'
        exact held
      · exact ih found
    · exact ih found
    · exact ih found

def Open (s : State M) (p : Nat) : Prop := ∀ proc, s.procs p = some proc → ¬proc.rest.Finished

theorem open_of_call {p : Nat} {proc : Proc M} {stmt : L.Stmt} {next : L.Result stmt → Prog L M.Value}
    (found : s.procs p = some proc) (rest : proc.rest = .call stmt next) : Open s p := by
  intro proc' found'
  cases found.symm.trans found'
  rw [rest]
  exact id

/-- What each process knows of the world in its phase: its own statements establish it,
and those of the others leave it alone. -/
theorem knows_of_traces {K : Nat → Phase → M.World → Prop} (start : ∀ p, K p P.start w)
    (own : ∀ {trace s p proc choice stmt next result w'}, M.Traces ok (M.initial w) trace s →
      ok s (.step p choice) →
      s.procs p = some proc → proc.rest = .call stmt next → M.exec p stmt choice s.world = some (result, w') →
      K p (P.phase p trace) s.world → K p (P.after (P.phase p trace) stmt result) w')
    (others : ∀ {trace s t a q}, M.Traces ok (M.initial w) trace s → ok s a → M.step s a = some t →
      (∀ choice, a ≠ .step q choice) → a ≠ .close q → Open s q → K q (P.phase q trace) s.world →
        K q (P.phase q trace) t.world)
    (traces : M.Traces ok (M.initial w) trace s) {p : Nat} (running : Open s p) : K p (P.phase p trace) s.world := by
  induction traces generalizing p with
  | refl => exact start p
  | @tail trace s t a run allowed stepped ih =>
    by_cases before : ∃ proc, s.procs p = some proc ∧ proc.rest.Finished
    · obtain ⟨proc, found, finished⟩ := before
      rcases Machine.rest_cases stepped found with same | ⟨_, _, unfinished, _⟩
      · exact absurd finished (running proc same)
      · exact absurd finished unfinished
    · have unfinished : Open s p := fun proc found finished => before ⟨proc, found, finished⟩
      have known := ih unfinished
      by_cases mine : ∃ choice, a = .step p choice
      · obtain ⟨choice, rfl⟩ := mine
        obtain ⟨proc, stmt, next, result, w', found, rest, executed, rfl⟩ := Machine.step_own stepped
        rw [phase_of_own found rest executed]
        exact own run allowed found rest executed known
      · have other : ∀ choice, a ≠ .step p choice := fun choice same => mine ⟨choice, same⟩
        rw [phase_of_other other]
        apply others run allowed stepped other _ unfinished known
        intro same
        subst same
        obtain ⟨proc, found, finished, _⟩ := Machine.step_close stepped
        exact before ⟨proc, found, finished⟩

end Runs
end Protocol
end Concurrency
