import LedgerFlow.Concurrency.Trace

/-! What a program still does after certain statements. -/

namespace Concurrency
variable {L : Language} {α β : Type}

namespace Prog

/-- On every way through the program on which all results are `fine`, what is left after
a statement in `P` is in `Φ`. -/
def Then (fine : (s : L.Stmt) → L.Result s → Prop) (P : L.Stmt → Prop)
    (Φ : Prog L α → Prop) : Prog L α → Prop
  | .ret _ => True
  | .raise _ => True
  | .call stmt next => ∀ result, fine stmt result → (P stmt → Φ (next result)) ∧ (next result).Then fine P Φ

def NeverRaises : Prog L α → Prop
  | .ret _ => True
  | .raise _ => False
  | .call _ next => ∀ result, (next result).NeverRaises

def Never (P : L.Stmt → Prop) : Prog L α → Prop
  | .ret _ => True
  | .raise _ => True
  | .call stmt next => ¬P stmt ∧ ∀ result, (next result).Never P

/-- No way through the program on which all results are `fine` raises an error in `E`. -/
def Spares (fine : (s : L.Stmt) → L.Result s → Prop) (E : L.Error → Prop) : Prog L α → Prop
  | .ret _ => True
  | .raise error => ¬E error
  | .call stmt next => ∀ result, fine stmt result → (next result).Spares fine E

variable {fine : (s : L.Stmt) → L.Result s → Prop} {P P' : L.Stmt → Prop} {E : L.Error → Prop}
  {Φ : Prog L α → Prop}

theorem Spares.bind {prog : Prog L α} {f : α → Prog L β} (first : prog.Spares fine E)
    (second : ∀ value, (f value).Spares fine E) : (prog >>= f).Spares fine E := by
  induction prog with
  | ret value => exact second value
  | raise error => exact first
  | call stmt next ih =>
    intro result accepted
    exact ih result (first result accepted)

theorem Never.bind {prog : Prog L α} {f : α → Prog L β} (first : prog.Never P)
    (second : ∀ value, (f value).Never P) : (prog >>= f).Never P := by
  induction prog with
  | ret value => exact second value
  | raise error => trivial
  | call stmt next ih => exact ⟨first.1, fun result => ih result (first.2 result)⟩

theorem Never.attempt {prog : Prog L α} {handler : L.Error → Prog L α} (first : prog.Never P)
    (second : ∀ error, (handler error).Never P) : (prog.attempt handler).Never P := by
  induction prog with
  | ret value => trivial
  | raise error => exact second error
  | call stmt next ih => exact ⟨first.1, fun result => ih result (first.2 result)⟩

theorem Never.ite {c : Prop} [Decidable c] {yes no : Prog L α} (first : yes.Never P) (second : no.Never P) :
    (if c then yes else no).Never P := by
  split
  · exact first
  · exact second

theorem Never.weaken {prog : Prog L α} (never : prog.Never P') (stronger : ∀ stmt, P stmt → P' stmt) :
    prog.Never P := by
  induction prog with
  | ret value => trivial
  | raise error => trivial
  | call stmt next ih => exact ⟨mt (stronger stmt) never.1, fun result => ih result (never.2 result)⟩

theorem Then.other {stmt : L.Stmt} {next : L.Result stmt → Prog L α} (other : ¬P stmt)
    (rest : ∀ result, fine stmt result → (next result).Then fine P Φ) : (Prog.call stmt next).Then fine P Φ :=
  fun result returned => ⟨fun absurd => (other absurd).elim, rest result returned⟩

theorem Never.then {prog : Prog L α} (never : prog.Never P) : prog.Then fine P Φ := by
  induction prog with
  | ret value => trivial
  | raise error => trivial
  | call stmt next ih => exact .other never.1 fun result _ => ih result (never.2 result)

end Prog

namespace Machine
variable {M : Machine L} {ok : State M → Action M → Prop} {w : M.World} {s t : State M} {p : Nat} {proc : Proc M}

theorem Runs.programs {Φ : M.Request → Prog L M.Value → Prop} (body : ∀ request, Φ request (M.body request))
    (next : ∀ request stmt next result, M.Returns stmt result → Φ request (.call stmt next) →
      Φ request (next result))
    (failed : ∀ request, Φ request (.raise M.failure)) (runs : M.Runs ok (M.initial w) s) :
    ∀ p proc, s.procs p = some proc → Φ proc.request proc.rest := by
  induction runs with
  | refl => exact fun p proc found => by cases found
  | tail _ stepped ih =>
    obtain ⟨a, _, stepped⟩ := stepped
    rcases step_cases stepped with ⟨q, request, rfl, fresh, rfl⟩ |
      ⟨q, choice, before, stmt, rest, result, w', rfl, found, call, executed, rfl⟩ |
      ⟨q, before, rfl, found, running, rfl⟩ | ⟨q, before, rfl, found, finished, rfl⟩ |
        ⟨e, w', rfl, ticked, rfl⟩
    · exact forall_update (Q := fun proc => Φ proc.request proc.rest) ih (body request)
    · refine forall_update (Q := fun proc => Φ proc.request proc.rest) ih
        (next _ stmt rest result ⟨_, _, _, _, executed⟩ ?_)
      exact call ▸ ih q before found
    · exact forall_update (Q := fun proc => Φ proc.request proc.rest) ih (failed _)
    · exact ih
    · exact ih

theorem Runs.spares {Φ : M.Request → Prop} {fine : (s : L.Stmt) → L.Result s → Prop} {E : L.Error → Prop}
    (body : ∀ request, Φ request → (M.body request).Spares fine E) (failed : ¬E M.failure)
    (execute : ∀ {s p proc choice stmt next result w'}, M.Runs ok (M.initial w) s → s.procs p = some proc →
      Φ proc.request → proc.rest = .call stmt next → M.exec p stmt choice s.world = some (result, w') →
        fine stmt result)
    (runs : M.Runs ok (M.initial w) s) :
    ∀ p proc, s.procs p = some proc → Φ proc.request → proc.rest.Spares fine E := by
  induction runs with
  | refl =>
    intro p proc found
    cases found
  | tail runs stepped ih =>
    obtain ⟨a, _, stepped⟩ := stepped
    rcases step_cases stepped with ⟨q, request, rfl, fresh, rfl⟩ |
      ⟨q, choice, before, stmt, rest, result, w', rfl, found, call, executed, rfl⟩ |
      ⟨q, before, rfl, found, running, rfl⟩ | ⟨q, before, rfl, found, finished, rfl⟩ |
        ⟨e, w', rfl, ticked, rfl⟩
    · exact forall_update (Q := fun proc => Φ proc.request → proc.rest.Spares fine E) ih (body request)
    · apply forall_update (Q := fun proc => Φ proc.request → proc.rest.Spares fine E) ih
      intro asked
      have spares := ih q before found asked
      rw [call] at spares
      exact spares result (execute runs found asked call executed)
    · exact forall_update (Q := fun proc => Φ proc.request → proc.rest.Spares fine E) ih fun _ => failed
    · exact ih
    · exact ih

theorem Runs.then {P : L.Stmt → Prop} {Φ : M.Request → Prog L M.Value → Prop}
    (body : ∀ request, (M.body request).Then M.Returns P (Φ request)) (runs : M.Runs ok (M.initial w) s)
    (found : s.procs p = some proc) {stmt : L.Stmt} {next : L.Result stmt → Prog L M.Value}
    (rest : proc.rest = .call stmt next)
    (executes : P stmt) {result : L.Result stmt} (returned : M.Returns stmt result) :
    Φ proc.request (next result) := by
  have follows := runs.programs (Φ := fun request prog => prog.Then M.Returns P (Φ request)) body
    (fun _ _ _ result returned before => (before result returned).2) (fun _ => trivial) p proc found
  rw [rest] at follows
  exact (follows result returned).1 executes

theorem Runs.keeps {Ψ : Prog L M.Value → Prop}
    (next : ∀ stmt next result, Ψ (.call stmt next) → Ψ (next result))
    (failed : Ψ (.raise M.failure)) (runs : M.Runs ok s t) (found : s.procs p = some proc) (holds : Ψ proc.rest) :
    ∃ after, t.procs p = some after ∧ Ψ after.rest := by
  induction runs with
  | refl => exact ⟨proc, found, holds⟩
  | tail _ stepped ih =>
    obtain ⟨a, _, stepped⟩ := stepped
    obtain ⟨before, found, holds⟩ := ih
    rcases rest_cases stepped found with same |
      ⟨after, found', _, raised | ⟨stmt, rest, result, call, advanced⟩⟩
    · exact ⟨before, same, holds⟩
    · exact ⟨after, found', raised ▸ failed⟩
    · exact ⟨after, found', advanced ▸ next stmt rest result (call ▸ holds)⟩

theorem Runs.unraised (runs : M.Runs ok s t) (found : s.procs p = some proc) (never : proc.rest.NeverRaises) :
    ∃ after, t.procs p = some after ∧ ∀ error, after.rest = .raise error → error = M.failure := by
  obtain ⟨after, found, holds⟩ := runs.keeps (Ψ := fun rest => rest.NeverRaises ∨ rest = .raise M.failure)
    (fun stmt next result holds => .inl (holds.resolve_right nofun result)) (.inr rfl) found (.inl never)
  refine ⟨after, found, fun error raised => ?_⟩
  rw [raised] at holds
  rcases holds with never | failed
  · exact never.elim
  · cases failed
    rfl

theorem unfinished_of_step {a : Action M} (stepped : M.step s a = some t) (found : t.procs p = some proc)
    (running : ¬proc.rest.Finished) :
    (∃ before, s.procs p = some before ∧ ¬before.rest.Finished) ∨ ∃ request, a = .start p request := by
  cases before : s.procs p with
  | none =>
    refine .inr (by_contra fun other => ?_)
    have idle := procs_of_step stepped before fun request same => other ⟨request, same⟩
    cases idle.symm.trans found
  | some proc' =>
    refine .inl ⟨proc', rfl, ?_⟩
    rcases rest_cases stepped before with same | ⟨_, _, unfinished, _⟩
    · cases same.symm.trans found
      exact running
    · exact unfinished

end Machine
end Concurrency
