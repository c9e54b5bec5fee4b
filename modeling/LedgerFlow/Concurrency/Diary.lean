import LedgerFlow.Concurrency.Trace

/-! The diary of a process: all its statements with their results, and the moments of
the run at which it executed them. -/

namespace Concurrency
variable {L : Language} {M : Machine L}

abbrev Diary (L : Language) := List (Σ stmt : L.Stmt, L.Result stmt)

def diary (M : Machine L) (allowed : M.Request → Diary L → L.Stmt → Prop) : Protocol M (Diary L) where
  start := []
  after φ stmt result := ⟨stmt, result⟩ :: φ
  allowed := allowed

/-- The phase to which a diary leads in another protocol. -/
def Protocol.reread {Phase : Type} (P : Protocol M Phase) : Diary L → Phase
  | [] => P.start
  | ⟨stmt, result⟩ :: φ => P.after (reread P φ) stmt result

variable {allowed : M.Request → Diary L → L.Stmt → Prop}

theorem Protocol.reread_diary {Phase : Type} (P : Protocol M Phase) (p : Nat) (trace : List (Executed L)) :
    P.reread ((diary M allowed).phase p trace) = P.phase p trace := by
  induction trace with
  | nil => rfl
  | cons e trace ih =>
    unfold phase
    split
    · exact congrArg (P.after · e.stmt e.result) ih
    · exact ih

/-- In the state `u`, which the run to `s` has come through, the process executed the statement with this
result, and had noted `earlier` before. -/
structure Performed (M : Machine L) (ok : State M → Action M → Prop) (w : M.World) (s : State M)
    (p : Nat) (stmt : L.Stmt)
    (result : L.Result stmt) (earlier : Diary L) (trace : List (Executed L)) (u : State M)
      (proc : Proc M) : Prop where
  traces : M.Traces ok (M.initial w) trace u
  later : M.Runs ok u s
  found : u.procs p = some proc
  next : ∃ next, proc.rest = .call stmt next
  executed : ∃ choice w', M.exec p stmt choice u.world = some (result, w')
  noted : (diary M fun _ _ _ => True).phase p trace = earlier

variable {ok : State M → Action M → Prop} {w : M.World} {s t : State M} {trace : List (Executed L)} {p : Nat}
  {stmt : L.Stmt} {result : L.Result stmt} {earlier : Diary L}

theorem diary_phase {allowed' : M.Request → Diary L → L.Stmt → Prop} (p : Nat) (trace : List (Executed L)) :
    (diary M allowed).phase p trace = (diary M allowed').phase p trace := by
  induction trace with
  | nil => rfl
  | cons e trace ih =>
    unfold Protocol.phase
    rw [ih]
    rfl

theorem performed_of_diary (traces : M.Traces ok (M.initial w) trace s) {later : Diary L}
    (noted : (diary M allowed).phase p trace = later ++ ⟨stmt, result⟩ :: earlier) :
    ∃ trace u proc, Performed M ok w s p stmt result earlier trace u proc := by
  induction traces generalizing later with
  | refl => cases later <;> cases noted
  | @tail trace s t a run permitted stepped ih =>
    have before : ∀ {later}, (diary M allowed).phase p trace = later ++ ⟨stmt, result⟩ :: earlier →
        ∃ trace u proc, Performed M ok w t p stmt result earlier trace u proc := by
      intro later noted
      obtain ⟨trace', u, proc, performed⟩ := ih noted
      exact ⟨trace', u, proc, { performed with later := performed.later.tail ⟨a, permitted, stepped⟩ }⟩
    by_cases mine : ∃ choice, a = .step p choice
    · obtain ⟨choice, rfl⟩ := mine
      obtain ⟨proc, stmt', next, result', w', found, rest, executed, _⟩ := Machine.step_own stepped
      rw [Protocol.phase_of_own found rest executed] at noted
      cases later with
      | nil =>
        obtain ⟨entry, before⟩ := List.cons.inj noted
        cases entry
        exact ⟨trace, s, proc, run, .single ⟨_, permitted, stepped⟩, found, ⟨next, rest⟩,
          ⟨choice, w', executed⟩, (diary_phase p trace).trans before⟩
      | cons _ _ => exact before (List.cons.inj noted).2
    · rw [Protocol.phase_of_other fun choice same => mine ⟨choice, same⟩] at noted
      exact before noted

namespace Machine

theorem Runs.request (runs : M.Runs ok s t) {proc : Proc M} (found : s.procs p = some proc) :
    ∃ after, t.procs p = some after ∧ after.request = proc.request := by
  induction runs with
  | refl => exact ⟨proc, found, rfl⟩
  | tail _ stepped ih =>
    obtain ⟨a, _, stepped⟩ := stepped
    obtain ⟨before, found, same⟩ := ih
    obtain ⟨after, found, same'⟩ := request_of_step stepped found
    exact ⟨after, found, same'.trans same⟩

end Machine
end Concurrency
