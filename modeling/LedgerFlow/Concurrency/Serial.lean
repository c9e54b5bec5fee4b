import LedgerFlow.Concurrency.Program

/-! Serial runs: whole requests one after the other, and what it means that an interleaving comes to the same. -/

namespace Concurrency
variable {L : Language}

namespace Machine
variable (M : Machine L) {α β : Type}

/-- Run alone by process `p` from `w`, the program may come to this outcome in `w'`. -/
inductive Executes (p : Nat) : Prog L α → M.World → Except L.Error α → M.World → Prop where
  | ret (value : α) (w : M.World) : Executes p (.ret value) w (.ok value) w
  | raise (error : L.Error) (w : M.World) : Executes p (.raise error) w (.error error) w
  | call {stmt : L.Stmt} {next : L.Result stmt → Prog L α} {choice : M.Choice} {result : L.Result stmt}
      {w w₁ w₂ : M.World}
      {outcome : Except L.Error α} (executed : M.exec p stmt choice w = some (result, w₁))
      (rest : Executes p (next result) w₁ outcome w₂) : Executes p (.call stmt next) w outcome w₂

def performs (p : Nat) : Prog L α → List M.Choice → M.World → Option (Except L.Error α × M.World)
  | .ret value, _, w => some (.ok value, w)
  | .raise error, _, w => some (.error error, w)
  | .call _ _, [], _ => none
  | .call stmt next, choice :: choices, w =>
    match M.exec p stmt choice w with
    | none => none
    | some (result, w') => performs p (next result) choices w'

/-- The runs, with the requests of the processes whose statements have changed what is
observed, in the order in which they did. -/
inductive History (ok : State M → Action M → Prop) (observe : M.World → β) (s : State M) :
    List M.Request → State M → Prop where
  | refl : History ok observe s [] s
  | quiet {calls : List M.Request} {t u : State M} {a : Action M} (history : History ok observe s calls t)
      (allowed : ok t a)
      (stepped : M.step t a = some u) (same : observe u.world = observe t.world) : History ok observe s calls u
  | changes {calls : List M.Request} {t u : State M} {p : Nat} {choice : M.Choice} {proc : Proc M}
      (history : History ok observe s calls t) (allowed : ok t (.step p choice))
        (stepped : M.step t (.step p choice) = some u)
      (found : t.procs p = some proc) (changed : observe u.world ≠ observe t.world) :
      History ok observe s (calls ++ [proc.request]) u

/-- The requests one after the other, each as a whole: it returns, has changed what is
observed, and its process ends. -/
inductive Serial (observe : M.World → β) (w : M.World) : List M.Request → M.World → Prop where
  | nil : Serial observe w [] w
  | snoc {calls : List M.Request} {u v : M.World} {request : M.Request} {p : Nat} {value : M.Value}
      (serial : Serial observe w calls u) (executes : M.Executes p (M.body request) u (.ok value) v)
      (changed : observe v ≠ observe u) : Serial observe w (calls ++ [request]) (M.close p v)

/-- Wherever `I` holds, the program run alone may return in a world where `Q` holds. -/
def Leads (p : Nat) (I : M.World → Prop) (prog : Prog L α) (Q : M.World → Prop) : Prop :=
  ∀ w, I w → ∃ value w', M.Executes p prog w (.ok value) w' ∧ Q w'

variable {M} {ok : State M → Action M → Prop} {observe : M.World → β} {s t u : State M}
  {a : Action M} {w : M.World} {calls : List M.Request}

namespace Executes
variable {p : Nat} {stmt : L.Stmt} {next : L.Result stmt → Prog L α} {w w' : M.World} {outcome : Except L.Error α}

theorem ret_cases {value : α} (executes : M.Executes p (.ret value) w outcome w') :
    outcome = .ok value ∧ w' = w := by
  cases executes
  exact ⟨rfl, rfl⟩

theorem raise_cases {error : L.Error} (executes : M.Executes p (.raise error) w outcome w') :
    outcome = .error error ∧ w' = w := by
  cases executes
  exact ⟨rfl, rfl⟩

theorem call_cases (executes : M.Executes p (.call stmt next) w outcome w') :
    ∃ choice result u, M.exec p stmt choice w = some (result, u) ∧ M.Executes p (next result) u outcome w' := by
  cases executes with
  | call executed rest => exact ⟨_, _, _, executed, rest⟩

theorem bind_cases {prog : Prog L α} {f : α → Prog L β} {outcome : Except L.Error β}
    (executes : M.Executes p (prog >>= f) w outcome w') :
    (∃ value u, M.Executes p prog w (.ok value) u ∧ M.Executes p (f value) u outcome w') ∨
      ∃ error, M.Executes p prog w (.error error) w' ∧ outcome = .error error := by
  induction prog generalizing w with
  | ret value => exact .inl ⟨value, _, .ret value _, executes⟩
  | raise error =>
    obtain ⟨failed, rfl⟩ := raise_cases executes
    exact .inr ⟨error, .raise error _, failed⟩
  | call stmt next ih =>
    obtain ⟨choice, result, u, executed, rest⟩ := call_cases executes
    rcases ih result rest with ⟨value, v, first, second⟩ | ⟨error, first, failed⟩
    · exact .inl ⟨value, v, .call executed first, second⟩
    · exact .inr ⟨error, .call executed first, failed⟩

theorem of_performs {prog : Prog L α} {choices : List M.Choice}
    (performed : M.performs p prog choices w = some (outcome, w')) : M.Executes p prog w outcome w' := by
  induction prog generalizing choices w with
  | ret value =>
    cases performed
    exact .ret value _
  | raise error =>
    cases performed
    exact .raise error _
  | call stmt next ih =>
    cases choices with
    | nil => cases performed
    | cons choice choices =>
      simp only [performs] at performed
      split at performed
      · cases performed
      · rename_i result u executed
        exact .call executed (ih result performed)

theorem bind {prog : Prog L α} {f : α → Prog L β} {value : α} {u : M.World} {outcome : Except L.Error β}
    (first : M.Executes p prog w (.ok value) u) (second : M.Executes p (f value) u outcome w') :
    M.Executes p (prog >>= f) w outcome w' := by
  induction prog generalizing w with
  | ret value' =>
    obtain ⟨same, rfl⟩ := ret_cases first
    cases same
    exact second
  | raise error =>
    obtain ⟨absurd, _⟩ := raise_cases first
    cases absurd
  | call stmt next ih =>
    obtain ⟨choice, result, v, executed, rest⟩ := call_cases first
    exact .call executed (ih result rest)

theorem of_alone {prog : Prog L α} {choice : M.Choice} (performed : M.alone p choice prog w = some (outcome, w')) :
    M.Executes p prog w outcome w' := by
  induction prog generalizing w with
  | ret value =>
    cases performed
    exact .ret value _
  | raise error =>
    cases performed
    exact .raise error _
  | call stmt next ih =>
    obtain ⟨result, u, executed, rest⟩ := alone_call_cases performed
    exact .call executed (ih result rest)

theorem of_enabled {I : M.World → Prop}
    (enabled : ∀ stmt u, I u → ∃ choice result v, M.exec p stmt choice u = some (result, v) ∧ I v)
    (prog : Prog L α) (holds : I w) : ∃ outcome w', M.Executes p prog w outcome w' ∧ I w' := by
  induction prog generalizing w with
  | ret value => exact ⟨_, w, .ret value w, holds⟩
  | raise error => exact ⟨_, w, .raise error w, holds⟩
  | call stmt next ih =>
    obtain ⟨choice, result, u, executed, kept⟩ := enabled stmt w holds
    obtain ⟨outcome, w', rest, last⟩ := ih result kept
    exact ⟨outcome, w', .call executed rest, last⟩

theorem runs {proc : Proc M} {outcome : Except L.Error M.Value} (found : s.procs p = some proc)
    (executes : M.Executes p proc.rest s.world outcome w') (own : ∀ s choice, ok s (.step p choice)) :
    ∃ t, M.Runs ok s t ∧ t.world = w' ∧
      (∃ after, t.procs p = some after ∧ after.rest.Finished ∧ ∀ value, outcome = .ok value →
        after.rest = .ret value) ∧
      ∀ q, q ≠ p → t.procs q = s.procs q := by
  obtain ⟨request, started, past, rest⟩ := proc
  induction rest generalizing s past with
  | ret value =>
    obtain ⟨rfl, rfl⟩ := ret_cases executes
    exact ⟨s, .refl, rfl, ⟨_, found, trivial, fun _ same => by cases same; rfl⟩, fun _ _ => rfl⟩
  | raise error =>
    obtain ⟨rfl, rfl⟩ := raise_cases executes
    exact ⟨s, .refl, rfl, ⟨_, found, trivial, fun _ absurd => by cases absurd⟩, fun _ _ => rfl⟩
  | call stmt next ih =>
    obtain ⟨choice, result, u, executed, rest⟩ := call_cases executes
    have stepped := step_eq found rfl executed
    let after : Proc M := ⟨request, started, (stmt, s.world) :: past, next result⟩
    have found' : (⟨u, Function.update s.procs p (some after)⟩ : State M).procs p = some after :=
      Function.update_self ..
    obtain ⟨t, later, reached, finished, others⟩ := ih result _ found' rest
    refine ⟨t, .head ⟨_, own s choice, stepped⟩ later, reached, finished, fun q other => ?_⟩
    rw [others q other]
    exact Function.update_of_ne other ..

theorem runs_request (ok : State M → Action M → Prop) {request : M.Request} {outcome : Except L.Error M.Value}
    (idle : s.procs p = none)
    (executes : M.Executes p (M.body request) s.world outcome w') (starts : ok s (.start p request))
    (own : ∀ s choice, ok s (.step p choice)) (closes : ∀ s, ok s (.close p)) :
    ∃ t, M.Runs ok s t ∧ t.world = M.close p w' ∧ ∀ q, q ≠ p → t.procs q = s.procs q := by
  have started : M.step s (.start p request) =
      some ⟨s.world, Function.update s.procs p (some (M.spawn request s.world))⟩ := by
    simp only [step, idle]
  obtain ⟨t, later, reached, ⟨after, found, finished, _⟩, others⟩ :=
    runs (M := M) (s := ⟨s.world, Function.update s.procs p (some (M.spawn request s.world))⟩)
      (Function.update_self ..) executes own
  have closed : M.step t (.close p) = some { t with world := M.close p t.world } := by
    simp only [step, found, if_pos finished]
  have run : M.Runs ok s { t with world := M.close p t.world } :=
    (Relation.ReflTransGen.head ⟨_, starts, started⟩ later).tail ⟨_, closes t, closed⟩
  refine ⟨_, run, congrArg (M.close p) reached, fun q other => ?_⟩
  rw [← Function.update_of_ne other (some (M.spawn request s.world)) s.procs]
  exact others q other

end Executes

namespace Leads
variable {p : Nat} {I Q : M.World → Prop} {stmt : L.Stmt} {next : L.Result stmt → Prog L α}

theorem ret {value : α} : M.Leads p I (.ret value) I :=
  fun w holds => ⟨value, w, .ret value w, holds⟩

theorem call {J : L.Result stmt → M.World → Prop}
    (executes : ∀ w, I w → ∃ choice result w', M.exec p stmt choice w = some (result, w') ∧ J result w')
    (rest : ∀ result, M.Leads p (J result) (next result) Q) : M.Leads p I (.call stmt next) Q := by
  intro w holds
  obtain ⟨choice, result, w₁, executed, holds₁⟩ := executes w holds
  obtain ⟨value, w₂, executes, holds₂⟩ := rest result w₁ holds₁
  exact ⟨value, w₂, .call executed executes, holds₂⟩

theorem returns {J : M.World → Prop} (result : L.Result stmt)
    (executes : ∀ w, I w → ∃ choice w', M.exec p stmt choice w = some (result, w') ∧ J w')
    (rest : M.Leads p J (next result) Q) : M.Leads p I (.call stmt next) Q := by
  intro w holds
  obtain ⟨choice, w₁, executed, holds₁⟩ := executes w holds
  obtain ⟨value, w₂, executes, holds₂⟩ := rest w₁ holds₁
  exact ⟨value, w₂, .call executed executes, holds₂⟩

end Leads

theorem History.runs (history : M.History ok observe s calls t) : M.Runs ok s t := by
  induction history with
  | refl => exact .refl
  | quiet _ allowed stepped _ ih => exact ih.tail ⟨_, allowed, stepped⟩
  | changes _ allowed stepped _ _ ih => exact ih.tail ⟨_, allowed, stepped⟩

theorem Runs.history (still : ∀ {s t : State M} {a}, M.step s a = some t →
    (∀ p choice, a ≠ .step p choice) →
    observe t.world = observe s.world) (runs : M.Runs ok s t) : ∃ calls, M.History ok observe s calls t := by
  induction runs with
  | refl => exact ⟨[], .refl⟩
  | @tail t u _ stepped ih =>
    obtain ⟨a, allowed, stepped⟩ := stepped
    obtain ⟨calls, history⟩ := ih
    by_cases same : observe u.world = observe t.world
    · exact ⟨calls, history.quiet allowed stepped same⟩
    · rcases step_cases stepped with ⟨p, request, rfl, _⟩ |
        ⟨p, choice, proc, stmt, next, result, w', rfl, found, _⟩ |
        ⟨p, proc, rfl, _⟩ | ⟨p, proc, rfl, _⟩ | ⟨e, w', rfl, _⟩
      · exact absurd (still stepped nofun) same
      · exact ⟨_, history.changes allowed stepped found same⟩
      · exact absurd (still stepped nofun) same
      · exact absurd (still stepped nofun) same
      · exact absurd (still stepped nofun) same

/-- A relation that steps without a change keep, and that every change can follow by running its request as a
whole, leads to a serial run. -/
theorem History.serial {R : State M → M.World → Prop} (start : R s w)
    (quiet : ∀ {t u v a}, M.Runs ok s t → ok t a → M.step t a = some u →
      observe u.world = observe t.world → R t v → R u v)
    (changes : ∀ {t u v p choice proc}, M.Runs ok s t → ok t (.step p choice) →
      M.step t (.step p choice) = some u →
      t.procs p = some proc → observe u.world ≠ observe t.world → R t v →
      ∃ q value v', M.Executes q (M.body proc.request) v (.ok value) v' ∧ observe v' ≠ observe v ∧
        R u (M.close q v'))
    (history : M.History ok observe s calls t) : ∃ v, M.Serial observe w calls v ∧ R t v := by
  induction history with
  | refl => exact ⟨w, .nil, start⟩
  | quiet history allowed stepped same ih =>
    obtain ⟨v, serial, related⟩ := ih
    exact ⟨v, serial, quiet history.runs allowed stepped same related⟩
  | changes history allowed stepped found changed ih =>
    obtain ⟨v, serial, related⟩ := ih
    obtain ⟨q, value, v', executes, changed', related'⟩ :=
      changes history.runs allowed stepped found changed related
    exact ⟨M.close q v', serial.snoc executes changed', related'⟩

end Machine
end Concurrency
