import LedgerFlow.Concurrency.Program

/-! Rely-guarantee reasoning for interleaved programs. A contract says what every statement of a
process may do to the world (`guar`) and what a process may count on the others to respect
(`rely`). `Safe` is the weakest precondition of a program under a contract, by recursion on the
program; `Sound.covers_step` turns it into a fact about every run of the machine. -/

namespace Concurrency
variable {L : Language} {M : Machine L}

structure Contract (M : Machine L) where
  inv : M.World → Prop
  rely : Nat → M.World → M.World → Prop
  guar : Nat → Proc M → M.World → Proc M → M.World → Prop
  post : Nat → Proc M → M.World → Prop

namespace Contract

/-- Whatever the others do within `rely` between two statements, each statement of the program
keeps `guar` and the program ends in `post`. -/
def Safe (C : Contract M) (p : Nat) (request : M.Request) (started : M.World) :
    Prog L M.Value → List (L.Stmt × M.World) → M.World → Prop
  | .ret value, past, w => C.post p ⟨request, started, past, .ret value⟩ w
  | .raise error, past, w => C.post p ⟨request, started, past, .raise error⟩ w
  | .call s next, past, w =>
    ∀ w₁, C.rely p w w₁ → C.inv w₁ → ∀ choice result w₂,
      M.exec p s choice w₁ = some (result, w₂) → C.guar p ⟨request, started, past, .call s next⟩ w₁
        ⟨request, started, (s, w₁) :: past, next result⟩ w₂ ∧
      Safe C p request started (next result) ((s, w₁) :: past) w₂

/-- What a contract needs in order to hold of every run whose requests are admitted: the guarantee of one
process is within what the others rely on, and each admitted program is safe when it starts. -/
structure Sound (C : Contract M) (permit : M.Request → Prop) (ready : Nat → M.World → Prop) : Prop where
  rely_refl : ∀ p w, C.rely p w w
  rely_trans : ∀ {p w₁ w₂ w₃}, C.rely p w₁ w₂ → C.rely p w₂ w₃ → C.rely p w₁ w₃
  ready_rely : ∀ {p w w'}, C.rely p w w' → ready p w → ready p w'
  guar_inv : ∀ {p b w a w'}, C.inv w → C.guar p b w a w' → C.inv w'
  guar_rely : ∀ {p q b w a w'}, C.inv w → C.guar p b w a w' → q ≠ p → C.rely q w w'
  close_inv : ∀ {p w}, C.inv w → C.inv (M.close p w)
  close_rely : ∀ {p q w}, C.inv w → q ≠ p → C.rely q w (M.close p w)
  tick_inv : ∀ {t w w'}, C.inv w → M.tick t w = some w' → C.inv w'
  tick_rely : ∀ {t w w' q}, C.inv w → M.tick t w = some w' → C.rely q w w'
  body_safe : ∀ {p request w}, permit request → C.inv w → ready p w →
    C.Safe p request w (M.body request) [] w

/-- A state in which the invariant holds, every running process is safe and every
process that has not started is ready. -/
structure Covers (C : Contract M) (ready : Nat → M.World → Prop) (s : State M) : Prop where
  inv : C.inv s.world
  idle : ∀ p, s.procs p = none → ready p s.world
  running : ∀ p proc, s.procs p = some proc → ¬proc.rest.Finished →
    C.Safe p proc.request proc.started proc.rest proc.past s.world

variable {C : Contract M} {permit : M.Request → Prop} {ready : Nat → M.World → Prop}

theorem Safe.rely (trans : ∀ {p w₁ w₂ w₃}, C.rely p w₁ w₂ → C.rely p w₂ w₃ → C.rely p w₁ w₃)
    {p : Nat} {request : M.Request} {started w w' : M.World} {rest : Prog L M.Value}
    {past : List (L.Stmt × M.World)} (running : ¬rest.Finished) (step : C.rely p w w')
    (safe : C.Safe p request started rest past w) : C.Safe p request started rest past w' := by
  cases rest with
  | ret value => exact absurd trivial running
  | raise error => exact absurd trivial running
  | call s next => exact fun w₁ later => safe w₁ (trans step later)

theorem Safe.post {p : Nat} {request : M.Request} {started w : M.World} {rest : Prog L M.Value}
    {past : List (L.Stmt × M.World)} (finished : rest.Finished) (safe : C.Safe p request started rest past w) :
    C.post p ⟨request, started, past, rest⟩ w := by
  cases rest with
  | ret value => exact safe
  | raise error => exact safe
  | call s next => exact absurd finished id

theorem Covers.initial {w : M.World} (inv : C.inv w) (idle : ∀ p, ready p w) :
    C.Covers ready (M.initial w) :=
  ⟨inv, fun p _ => idle p, fun p proc found => by simp [Machine.initial] at found⟩

/-- A place in a program: the statements of the code put there are executed first. -/
def Context {α : Type} (K : Prog L α → Prog L M.Value) : Prop :=
  ∀ stmt next, K (.call stmt next) = .call stmt fun result => K (next result)

/-- From `P` the code comes to a value in `Q` or to an exception in `E`, and keeps the contract on the way. -/
def Triple (C : Contract M) (p : Nat) (request : M.Request) (started : M.World) {α : Type}
    (P : List (L.Stmt × M.World) → M.World → Prop) (code : Prog L α)
    (Q : α → List (L.Stmt × M.World) → M.World → Prop)
    (E : L.Error → List (L.Stmt × M.World) → M.World → Prop) : Prop :=
  ∀ K : Prog L α → Prog L M.Value, Context K → ∀ past w, P past w →
    (∀ value past w, Q value past w → C.Safe p request started (K (.ret value)) past w) →
    (∀ error past w, E error past w → C.Safe p request started (K (.raise error)) past w) →
    C.Safe p request started (K code) past w

namespace Triple
variable {p : Nat} {request : M.Request} {started : M.World} {α β : Type}
  {P P' : List (L.Stmt × M.World) → M.World → Prop} {Q Q' : α → List (L.Stmt × M.World) → M.World → Prop}
  {R : β → List (L.Stmt × M.World) → M.World → Prop}
    {E E' : L.Error → List (L.Stmt × M.World) → M.World → Prop}

theorem ret {value : α} (holds : ∀ past w, P past w → Q value past w) :
    C.Triple p request started P (.ret value) Q E :=
  fun _ _ _ _ pre returns _ => returns value _ _ (holds _ _ pre)

theorem raise {error : L.Error} (holds : ∀ past w, P past w → E error past w) :
    C.Triple p request started P (.raise error : Prog L α) Q E :=
  fun _ _ _ _ pre _ raises => raises error _ _ (holds _ _ pre)

theorem conseq {code : Prog L α} (triple : C.Triple p request started P' code Q' E)
    (stronger : ∀ past w, P past w → P' past w) (weaker : ∀ value past w, Q' value past w → Q value past w) :
    C.Triple p request started P code Q E :=
  fun K context past w holds returns raises =>
    triple K context past w (stronger _ _ holds) (fun value _ _ post => returns value _ _ (weaker _ _ _ post)) raises

theorem given {φ : Prop} {code : Prog L α} (triple : φ → C.Triple p request started P code Q E) :
    C.Triple p request started (fun past w => φ ∧ P past w) code Q E :=
  fun K context past w holds => triple holds.1 K context past w holds.2

theorem bind {code : Prog L α} {f : α → Prog L β} (first : C.Triple p request started P code Q E)
    (second : ∀ value, C.Triple p request started (Q value) (f value) R E) :
    C.Triple p request started P (code >>= f) R E := by
  intro K context past w holds returns raises
  have inner : Context fun code : Prog L α => K (code >>= f) := fun stmt next => context stmt _
  exact first _ inner past w holds (fun value _ _ holds' => second value K context _ _ holds' returns raises) raises

theorem attempt {code : Prog L α} {handler : L.Error → Prog L α} (first : C.Triple p request started P code Q E')
    (second : ∀ error, C.Triple p request started (E' error) (handler error) Q E) :
    C.Triple p request started P (code.attempt handler) Q E := by
  intro K context past w holds returns raises
  have inner : Context fun code : Prog L α => K (code.attempt handler) := fun stmt next => context stmt _
  exact first _ inner past w holds returns fun error _ _ holds' => second error K context _ _ holds' returns raises

theorem call {stmt : L.Stmt} {Q : L.Result stmt → List (L.Stmt × M.World) → M.World → Prop}
    (executes : ∀ {past w w₁ choice result w₂}, P past w → C.rely p w w₁ → C.inv w₁ →
      M.exec p stmt choice w₁ = some (result, w₂) →
      (∀ next, C.guar p ⟨request, started, past, .call stmt next⟩ w₁
        ⟨request, started, (stmt, w₁) :: past, next result⟩ w₂) ∧ Q result ((stmt, w₁) :: past) w₂) :
    C.Triple p request started P (.call stmt .ret) Q E := by
  intro K context past w holds returns raises
  rw [context]
  intro w₁ others inv choice result w₂ executed
  obtain ⟨guar, post⟩ := executes holds others inv executed
  exact ⟨guar _, returns result _ _ post⟩

theorem seq {stmt : L.Stmt} {next : L.Result stmt → Prog L α}
    {Q : L.Result stmt → List (L.Stmt × M.World) → M.World → Prop}
    {R : α → List (L.Stmt × M.World) → M.World → Prop}
    (first : C.Triple p request started P (.call stmt .ret) Q E)
    (second : ∀ result, C.Triple p request started (Q result) (next result) R E) :
    C.Triple p request started P (.call stmt next) R E :=
  bind first second

theorem safe {Q : M.Value → List (L.Stmt × M.World) → M.World → Prop} {code : Prog L M.Value}
    (triple : C.Triple p request started P code Q E) {past : List (L.Stmt × M.World)} {w : M.World}
    (holds : P past w)
    (returns : ∀ value past w, Q value past w → C.post p ⟨request, started, past, .ret value⟩ w)
    (raises : ∀ error past w, E error past w → C.post p ⟨request, started, past, .raise error⟩ w) :
    C.Safe p request started code past w :=
  triple id (fun _ _ => rfl) past w holds returns raises

end Triple

namespace Sound
variable (sound : C.Sound permit ready)
include sound

theorem covers_world {s : State M} {w : M.World} (covered : C.Covers ready s) (inv : C.inv w)
    (rely : ∀ p proc, s.procs p = some proc → ¬proc.rest.Finished → C.rely p s.world w)
    (idle : ∀ p, s.procs p = none → C.rely p s.world w) : C.Covers ready { s with world := w } where
  inv := inv
  idle p none := sound.ready_rely (idle p none) (covered.idle p none)
  running p proc found running :=
    (covered.running p proc found running).rely sound.rely_trans running (rely p proc found running)

/-- The guarantee holds of every executed statement, and the postcondition where the program ends. -/
theorem guar_of_step {s : State M} (covered : C.Covers ready s) {p : Nat} {choice : M.Choice} {proc : Proc M}
    {stmt : L.Stmt} {next : L.Result stmt → Prog L M.Value} {result : L.Result stmt} {w : M.World}
    (found : s.procs p = some proc) (rest : proc.rest = .call stmt next)
    (executed : M.exec p stmt choice s.world = some (result, w)) :
    C.guar p proc s.world { proc with past := (stmt, s.world) :: proc.past, rest := next result } w ∧
      C.Safe p proc.request proc.started (next result) ((stmt, s.world) :: proc.past) w := by
  obtain ⟨request, started, past, rest'⟩ := proc
  subst rest
  exact covered.running p _ found id s.world (sound.rely_refl p _) covered.inv choice result w executed

theorem covers_step {s t : State M} {a : Action M} (covered : C.Covers ready s)
    (admitted : ∀ p request, a = .start p request → permit request) (stepped : M.step s a = some t) :
    C.Covers ready t := by
  rcases Machine.step_cases stepped with ⟨p, request, rfl, fresh, rfl⟩ |
    ⟨p, choice, proc, stmt, next, result, w, rfl, found, rest, executed, rfl⟩ |
    ⟨p, proc, rfl, found, running, rfl⟩ | ⟨p, proc, rfl, found, finished, rfl⟩ | ⟨e, w, rfl, ticked, rfl⟩
  · refine ⟨covered.inv, fun q none => covered.idle q (Machine.idle_update none).2,
      fun q proc found running => ?_⟩
    rcases Machine.found_update found with ⟨rfl, rfl⟩ | ⟨_, found⟩
    · exact sound.body_safe (admitted _ _ rfl) covered.inv (covered.idle q fresh)
    · exact covered.running q proc found running
  · obtain ⟨guar, safe⟩ := sound.guar_of_step covered found rest executed
    refine ⟨sound.guar_inv covered.inv guar, fun q none => ?_, fun q proc' found' running => ?_⟩
    · obtain ⟨other, idle⟩ := Machine.idle_update none
      exact sound.ready_rely (sound.guar_rely covered.inv guar other) (covered.idle q idle)
    · rcases Machine.found_update found' with ⟨rfl, rfl⟩ | ⟨other, found'⟩
      · exact safe
      · exact (covered.running q proc' found' running).rely sound.rely_trans running
          (sound.guar_rely covered.inv guar other)
  · refine ⟨covered.inv, fun q none => covered.idle q (Machine.idle_update none).2,
      fun q proc' found' running' => ?_⟩
    rcases Machine.found_update found' with ⟨rfl, rfl⟩ | ⟨_, found'⟩
    · exact absurd trivial running'
    · exact covered.running q proc' found' running'
  · refine sound.covers_world covered (sound.close_inv covered.inv) (fun q proc' found' running => ?_)
      (fun q none => ?_)
    · refine sound.close_rely covered.inv (fun same => running ?_)
      subst same
      rw [found] at found'
      exact Option.some.inj found' ▸ finished
    · exact sound.close_rely covered.inv (fun same => by simp [same, found] at none)
  · exact sound.covers_world covered (sound.tick_inv covered.inv ticked)
      (fun _ _ _ _ => sound.tick_rely covered.inv ticked) (fun _ _ => sound.tick_rely covered.inv ticked)

/-- A process that is finished after a step was finished before, or has just come to its postcondition by
starting or by its last statement, or was cut off. -/
theorem finished_cases {s t : State M} {a : Action M} (covered : C.Covers ready s)
    (admitted : ∀ p request, a = .start p request → permit request) (stepped : M.step s a = some t) {p : Nat}
    {proc : Proc M} (found : t.procs p = some proc) (finished : proc.rest.Finished) :
    s.procs p = some proc ∨
    (C.post p proc t.world ∧ (proc.past = [] ∨ ∃ choice before stmt next, a = .step p choice ∧
      s.procs p = some before ∧ before.request = proc.request ∧ before.rest = .call stmt next ∧
      proc.past = (stmt, s.world) :: before.past)) ∨
    (a = .abort p ∧ proc.rest = .raise M.failure) := by
  rcases Machine.step_cases stepped with ⟨q, request, rfl, fresh, rfl⟩ |
    ⟨q, choice, before, stmt, next, result, w, rfl, found', rest, executed, rfl⟩ |
    ⟨q, before, rfl, found', running, rfl⟩ | ⟨q, before, rfl, found', finished', rfl⟩ |
      ⟨e, w, rfl, ticked, rfl⟩
  · rcases Machine.found_update found with ⟨rfl, rfl⟩ | ⟨_, old⟩
    · exact .inr (.inl ⟨(sound.body_safe (admitted _ _ rfl) covered.inv (covered.idle p fresh)).post
        finished, .inl rfl⟩)
    · exact .inl old
  · rcases Machine.found_update found with ⟨rfl, rfl⟩ | ⟨_, old⟩
    · exact .inr (.inl ⟨(sound.guar_of_step covered found' rest executed).2.post finished,
        .inr ⟨choice, before, stmt, next, rfl, found', rfl, rest, rfl⟩⟩)
    · exact .inl old
  · rcases Machine.found_update found with ⟨rfl, rfl⟩ | ⟨_, old⟩
    · exact .inr (.inr ⟨rfl, rfl⟩)
    · exact .inl old
  · exact .inl found
  · exact .inl found

theorem covers_runs {ok : State M → Action M → Prop}
    (admitted : ∀ s p request, ok s (.start p request) → permit request) {s t : State M}
    (covered : C.Covers ready s) (runs : M.Runs ok s t) : C.Covers ready t := by
  induction runs with
  | refl => exact covered
  | tail _ stepped ih =>
    obtain ⟨a, allowed, stepped⟩ := stepped
    exact sound.covers_step ih (fun p request same => admitted _ p request (same ▸ allowed)) stepped

end Sound
end Contract
end Concurrency
