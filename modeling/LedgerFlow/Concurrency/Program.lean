import Mathlib.Logic.Relation
import Mathlib.Logic.Function.Basic

/-! Programs over a language of atomic statements and the machine that interleaves them.
A program is the tree of the statements it may still execute; the machine runs any number of
programs against one world, one statement at a time, in any order. -/

namespace Concurrency

/-- The atomic statements of a language, what each returns, and the errors a program may raise. -/
structure Language where
  Stmt : Type
  Result : Stmt → Type
  Error : Type

inductive Prog (L : Language) (α : Type) where
  | ret (value : α)
  | raise (error : L.Error)
  | call (stmt : L.Stmt) (next : L.Result stmt → Prog L α)

namespace Prog
variable {L : Language} {α β : Type}

def bind : Prog L α → (α → Prog L β) → Prog L β
  | .ret value, f => f value
  | .raise error, _ => .raise error
  | .call stmt next, f => .call stmt (fun result => (next result).bind f)

instance : Monad (Prog L) where
  pure := .ret
  bind := bind

def stmt (s : L.Stmt) : Prog L (L.Result s) := .call s .ret

/-- Run `body`; an error it raises goes to the handler. -/
def attempt : Prog L α → (L.Error → Prog L α) → Prog L α
  | .ret value, _ => .ret value
  | .raise error, handler => handler error
  | .call stmt next, handler => .call stmt (fun result => (next result).attempt handler)

@[simp] theorem pure_eq (value : α) : (pure value : Prog L α) = .ret value := rfl

@[simp] theorem ret_bind (value : α) (f : α → Prog L β) : (Prog.ret value >>= f) = f value := rfl

@[simp] theorem raise_bind (error : L.Error) (f : α → Prog L β) :
    ((.raise error : Prog L α) >>= f) = .raise error := rfl

@[simp] theorem call_bind (s : L.Stmt) (next : L.Result s → Prog L α) (f : α → Prog L β) :
    (Prog.call s next >>= f) = .call s (fun result => next result >>= f) := rfl

@[simp] theorem stmt_bind (s : L.Stmt) (f : L.Result s → Prog L β) : (stmt s >>= f) = .call s f := rfl

theorem bind_assoc {γ : Type} (prog : Prog L α) (f : α → Prog L β) (g : β → Prog L γ) :
    prog >>= f >>= g = prog >>= fun value => f value >>= g := by
  induction prog with
  | ret value => rfl
  | raise error => rfl
  | call s next ih => exact congrArg (Prog.call s) (funext ih)

theorem bind_ret (prog : Prog L α) : prog >>= .ret = prog := by
  induction prog with
  | ret value => rfl
  | raise error => rfl
  | call s next ih => exact congrArg (Prog.call s) (funext ih)

@[simp] theorem attempt_ret (value : α) (handler : L.Error → Prog L α) :
    (Prog.ret value).attempt handler = .ret value := rfl

@[simp] theorem attempt_raise (error : L.Error) (handler : L.Error → Prog L α) :
    (Prog.raise error).attempt handler = handler error := rfl

@[simp] theorem attempt_call (s : L.Stmt) (next : L.Result s → Prog L α) (handler : L.Error → Prog L α) :
    (Prog.call s next).attempt handler = .call s (fun result => (next result).attempt handler) := rfl

def Finished : Prog L α → Prop
  | .ret _ => True
  | .raise _ => True
  | .call _ _ => False

instance : DecidablePred (Finished : Prog L α → Prop)
  | .ret _ => isTrue trivial
  | .raise _ => isTrue trivial
  | .call _ _ => isFalse id

def head : Prog L α → Option L.Stmt
  | .ret _ => none
  | .raise _ => none
  | .call s _ => some s

/-- Every way through the program on which all results are `fine` executes a statement in `P`. -/
def Inevitably (fine : (s : L.Stmt) → L.Result s → Prop) (P : L.Stmt → Prop) : Prog L α → Prop
  | .ret _ => False
  | .raise _ => False
  | .call s next => P s ∨ ∀ result, fine s result → (next result).Inevitably fine P

/-- On every way through the program on which all results are `fine` each executed
statement is in `P`, and a returned value in `Q`. -/
def Always (fine : (s : L.Stmt) → L.Result s → Prop) (P : L.Stmt → Prop) (Q : α → Prop) : Prog L α → Prop
  | .ret value => Q value
  | .raise _ => True
  | .call s next => P s ∧ ∀ result, fine s result → (next result).Always fine P Q

theorem Always.bind {fine : (s : L.Stmt) → L.Result s → Prop} {P : L.Stmt → Prop}
    {Q : α → Prop} {R : β → Prop} {prog : Prog L α} {f : α → Prog L β} (first : prog.Always fine P Q)
    (second : ∀ value, Q value → (f value).Always fine P R) : (prog >>= f).Always fine P R := by
  induction prog with
  | ret value => exact second value first
  | raise error => trivial
  | call s next ih => exact ⟨first.1, fun result accepted => ih result (first.2 result accepted)⟩

end Prog

/-- A world that statements read and write. `exec` is partial: a statement that has to wait is
not executed. `Choice` is what the environment decides about one execution. -/
structure Machine (L : Language) where
  World : Type
  Choice : Type
  Tick : Type
  Request : Type
  Value : Type
  body : Request → Prog L Value
  exec : Nat → (s : L.Stmt) → Choice → World → Option (L.Result s × World)
  /-- The end of a process gives up what it still holds in the world. -/
  close : Nat → World → World
  tick : Tick → World → Option World
  failure : L.Error

variable {L : Language}

theorem reaches_of_actions {σ α : Type} {step : σ → α → Option σ} {actions : List α} {s t : σ}
    (executed : actions.foldlM step s = some t) :
    Relation.ReflTransGen (fun s t => ∃ a, step s a = some t) s t := by
  induction actions generalizing s with
  | nil =>
    cases executed
    exact .refl
  | cons a rest ih =>
    rw [List.foldlM_cons] at executed
    obtain ⟨u, stepped, executed⟩ := Option.bind_eq_some_iff.1 executed
    exact .head ⟨a, stepped⟩ (ih executed)

/-- One process: its request, the world it started in, every statement it has executed with the
world it executed it in (newest first), and what is left to execute. -/
structure Proc (M : Machine L) where
  request : M.Request
  started : M.World
  past : List (L.Stmt × M.World)
  rest : Prog L M.Value

structure State (M : Machine L) where
  world : M.World
  procs : Nat → Option (Proc M)

inductive Action (M : Machine L) where
  | start (p : Nat) (request : M.Request)
  | step (p : Nat) (choice : M.Choice)
  | abort (p : Nat)
  | close (p : Nat)
  | tick (t : M.Tick)

namespace Machine
variable (M : Machine L)

def initial (world : M.World) : State M := ⟨world, fun _ => none⟩

def spawn (request : M.Request) (world : M.World) : Proc M := ⟨request, world, [], M.body request⟩

def advance (p : Nat) (proc : Proc M) (choice : M.Choice) (world : M.World) : Option (Proc M × M.World) :=
  match proc.rest with
  | .ret _ => none
  | .raise _ => none
  | .call s next =>
    match M.exec p s choice world with
    | none => none
    | some (result, world') =>
      some ({ proc with past := (s, world) :: proc.past, rest := next result }, world')

def step (s : State M) : Action M → Option (State M)
  | .start p request =>
    match s.procs p with
    | some _ => none
    | none => some { s with procs := Function.update s.procs p (some (M.spawn request s.world)) }
  | .step p choice =>
    match s.procs p with
    | none => none
    | some proc =>
      match M.advance p proc choice s.world with
      | none => none
      | some (proc', world') => some ⟨world', Function.update s.procs p (some proc')⟩
  | .abort p =>
    match s.procs p with
    | none => none
    | some proc =>
      if proc.rest.Finished then none
      else some { s with procs := Function.update s.procs p (some { proc with rest := .raise M.failure }) }
  | .close p =>
    match s.procs p with
    | none => none
    | some proc => if proc.rest.Finished then some { s with world := M.close p s.world } else none
  | .tick t =>
    match M.tick t s.world with
    | none => none
    | some world' => some { s with world := world' }

/-- The state after a list of actions, where each of them is possible and `allow`ed. -/
def run (allow : State M → Action M → Bool) (s : State M) : List (Action M) → Option (State M)
  | [] => some s
  | a :: rest =>
    match allow s a, M.step s a with
    | true, some t => run allow t rest
    | _, _ => none

/-- The program run by process `p` alone: what it returns or raises, nothing where it has to wait. -/
def alone {α : Type} (p : Nat) (choice : M.Choice) : Prog L α → M.World → Option (Except L.Error α × M.World)
  | .ret value, w => some (.ok value, w)
  | .raise error, w => some (.error error, w)
  | .call s next, w =>
    match M.exec p s choice w with
    | none => none
    | some (result, w') => alone p choice (next result) w'

def Step (ok : State M → Action M → Prop) (s t : State M) : Prop := ∃ a, ok s a ∧ M.step s a = some t

abbrev Runs (ok : State M → Action M → Prop) : State M → State M → Prop := Relation.ReflTransGen (M.Step ok)

def anything : State M → Action M → Prop := fun _ _ => True

variable {M}

theorem Runs.mono {ok ok' : State M → Action M → Prop} (weaker : ∀ s a, ok s a → ok' s a) {s t : State M}
    (run : M.Runs ok s t) : M.Runs ok' s t := by
  induction run with
  | refl => exact .refl
  | tail _ stepped ih =>
    obtain ⟨a, allowed, stepped⟩ := stepped
    exact .tail ih ⟨a, weaker _ _ allowed, stepped⟩

theorem Runs.of_run {ok : State M → Action M → Prop} {allow : State M → Action M → Bool}
    (allowed : ∀ s a, allow s a → ok s a) {s t : State M} {actions : List (Action M)}
    (executed : M.run allow s actions = some t) : M.Runs ok s t := by
  induction actions generalizing s with
  | nil =>
    simp only [run, Option.some.injEq] at executed
    exact executed ▸ .refl
  | cons a rest ih =>
    simp only [run] at executed
    split at executed
    · rename_i u permitted stepped
      exact .head ⟨a, allowed s a permitted, stepped⟩ (ih executed)
    · cases executed

theorem Runs.of_actions {ok : State M → Action M → Prop} {actions : List (Action M)}
    (allowed : ∀ a ∈ actions, ∀ s, ok s a) {s t : State M}
    (executed : M.run (fun _ _ => true) s actions = some t) : M.Runs ok s t := by
  induction actions generalizing s with
  | nil =>
    simp only [run, Option.some.injEq] at executed
    exact executed ▸ .refl
  | cons a rest ih =>
    simp only [run] at executed
    split at executed
    · rename_i u _ stepped
      exact .head ⟨a, allowed a List.mem_cons_self s, stepped⟩
        (ih (fun b member => allowed b (List.mem_cons_of_mem a member)) executed)
    · cases executed

theorem run_singleton {allow : State M → Action M → Bool} {s t : State M} {a : Action M}
    (executed : M.run allow s [a] = some t) : allow s a ∧ M.step s a = some t := by
  simp only [run] at executed
  split at executed
  · rename_i u permitted stepped
    cases executed
    exact ⟨permitted, stepped⟩
  · cases executed

theorem step_cases {s t : State M} {a : Action M} (stepped : M.step s a = some t) :
    (∃ p request, a = .start p request ∧ s.procs p = none ∧
      t = { s with procs := Function.update s.procs p (some (M.spawn request s.world)) }) ∨
    (∃ p choice proc stmt next result world', a = .step p choice ∧ s.procs p = some proc ∧
      proc.rest = .call stmt next ∧ M.exec p stmt choice s.world = some (result, world') ∧
      t = ⟨world', Function.update s.procs p
        (some { proc with past := (stmt, s.world) :: proc.past, rest := next result })⟩) ∨
    (∃ p proc, a = .abort p ∧ s.procs p = some proc ∧ ¬proc.rest.Finished ∧
      t = { s with procs := Function.update s.procs p (some { proc with rest := .raise M.failure }) }) ∨
    (∃ p proc, a = .close p ∧ s.procs p = some proc ∧ proc.rest.Finished ∧
      t = { s with world := M.close p s.world }) ∨
    (∃ e world', a = .tick e ∧ M.tick e s.world = some world' ∧ t = { s with world := world' }) := by
  cases a with
  | start p request =>
    cases found : s.procs p with
    | some proc => simp [step, found] at stepped
    | none => exact .inl ⟨p, request, rfl, found, by simpa [step, found] using stepped.symm⟩
  | step p choice =>
    cases found : s.procs p with
    | none => simp [step, found] at stepped
    | some proc =>
      cases rest : proc.rest with
      | ret value => simp [step, found, advance, rest] at stepped
      | raise error => simp [step, found, advance, rest] at stepped
      | call stmt next =>
        cases executed : M.exec p stmt choice s.world with
        | none => simp [step, found, advance, rest, executed] at stepped
        | some pair =>
          obtain ⟨result, world'⟩ := pair
          refine .inr (.inl ⟨p, choice, proc, stmt, next, result, world', rfl, found, rest, executed, ?_⟩)
          simpa [step, found, advance, rest, executed] using stepped.symm
  | abort p =>
    cases found : s.procs p with
    | none => simp [step, found] at stepped
    | some proc =>
      by_cases finished : proc.rest.Finished
      · simp [step, found, finished] at stepped
      · exact .inr (.inr (.inl ⟨p, proc, rfl, found,
          finished, by simpa [step, found, finished] using stepped.symm⟩))
  | close p =>
    cases found : s.procs p with
    | none => simp [step, found] at stepped
    | some proc =>
      by_cases finished : proc.rest.Finished
      · exact .inr (.inr (.inr (.inl
          ⟨p, proc, rfl, found, finished, by simpa [step, found, finished] using stepped.symm⟩)))
      · simp [step, found, finished] at stepped
  | tick e =>
    cases ticked : M.tick e s.world with
    | none => simp [step, ticked] at stepped
    | some world' =>
      exact .inr (.inr (.inr (.inr ⟨e, world', rfl, ticked, by simpa [step, ticked] using stepped.symm⟩)))

theorem step_start {s t : State M} {p : Nat} {request : M.Request} (stepped : M.step s (.start p request) = some t) :
    s.procs p = none ∧ t = { s with procs := Function.update s.procs p (some (M.spawn request s.world)) } := by
  cases found : s.procs p with
  | some proc => simp [step, found] at stepped
  | none => exact ⟨rfl, by simpa [step, found] using stepped.symm⟩

theorem step_own {s t : State M} {p : Nat} {choice : M.Choice} (stepped : M.step s (.step p choice) = some t) :
    ∃ proc stmt next result world', s.procs p = some proc ∧ proc.rest = .call stmt next ∧
      M.exec p stmt choice s.world = some (result, world') ∧
      t = ⟨world', Function.update s.procs p
        (some { proc with past := (stmt, s.world) :: proc.past, rest := next result })⟩ := by
  rcases step_cases stepped with ⟨_, _, other, _⟩ |
    ⟨_, _, proc, stmt, next, result, world', same, found, rest, executed, reached⟩ |
    ⟨_, _, other, _⟩ | ⟨_, _, other, _⟩ | ⟨_, _, other, _⟩
  · cases other
  · cases same
    exact ⟨proc, stmt, next, result, world', found, rest, executed, reached⟩
  · cases other
  · cases other
  · cases other

theorem step_close {s t : State M} {p : Nat} (stepped : M.step s (.close p) = some t) :
    ∃ proc, s.procs p = some proc ∧ proc.rest.Finished ∧ t = { s with world := M.close p s.world } := by
  rcases step_cases stepped with ⟨_, _, other, _⟩ | ⟨_, _, _, _, _, _, _, other, _⟩ | ⟨_, _, other, _⟩ |
    ⟨_, proc, same, found, finished, reached⟩ | ⟨_, _, other, _⟩
  · cases other
  · cases other
  · cases other
  · cases same
    exact ⟨proc, found, finished, reached⟩
  · cases other

theorem step_tick {s : State M} {e : M.Tick} {w : M.World} (ticked : M.tick e s.world = some w) :
    M.step s (.tick e) = some { s with world := w } := by
  simp [step, ticked]

theorem procs_of_step {s t : State M} {a : Action M} (stepped : M.step s a = some t) {p : Nat}
    (idle : s.procs p = none) (other : ∀ request, a ≠ .start p request) : t.procs p = none := by
  rcases step_cases stepped with ⟨q, request, rfl, fresh, rfl⟩ |
    ⟨q, choice, before, stmt, next, result, w, rfl, found, rest, executed, rfl⟩ |
    ⟨q, before, rfl, found, running, rfl⟩ | ⟨q, before, rfl, found, finished, rfl⟩ |
      ⟨e, w, rfl, ticked, rfl⟩
  · have different : p ≠ q := fun same => other request (by rw [same])
    simpa [Function.update_of_ne different] using idle
  · have different : p ≠ q := fun same => by simp [← same, idle] at found
    simpa [Function.update_of_ne different] using idle
  · have different : p ≠ q := fun same => by simp [← same, idle] at found
    simpa [Function.update_of_ne different] using idle
  · exact idle
  · exact idle

theorem procs_of_run {allow : State M → Action M → Bool} {s t : State M} {actions : List (Action M)}
    (executed : M.run allow s actions = some t) {p : Nat} (idle : s.procs p = none)
    (other : ∀ a ∈ actions, ∀ request, a ≠ .start p request) : t.procs p = none := by
  induction actions generalizing s with
  | nil =>
    cases executed
    exact idle
  | cons a rest ih =>
    simp only [run] at executed
    split at executed
    · rename_i u _ stepped
      exact ih executed (procs_of_step stepped idle (other a List.mem_cons_self))
        fun b member => other b (List.mem_cons_of_mem a member)
    · cases executed

theorem Runs.of_observed {β : Type} (ok : State M → Action M → Prop) {allow : State M → Action M → Bool}
    (allowed : ∀ s a, allow s a → ok s a) {s : State M} {actions : List (Action M)}
    {observe : State M → β} {value : β}
    (executed : (M.run allow s actions).map observe = some value) : ∃ t, M.Runs ok s t ∧ observe t = value := by
  obtain ⟨t, reached, observed⟩ := Option.map_eq_some_iff.1 executed
  exact ⟨t, .of_run allowed reached, observed⟩

theorem Runs.of_run_below {n : Nat} {ok : State M → Action M → Prop} {allow : State M → Action M → Bool}
    (allowed : ∀ s a, (∀ q, n ≤ q → s.procs q = none) → allow s a → ok s a) {s t : State M}
    {actions : List (Action M)}
    (starts : ∀ p request, .start p request ∈ actions → p < n) (unused : ∀ q, n ≤ q → s.procs q = none)
    (executed : M.run allow s actions = some t) : M.Runs ok s t ∧ ∀ q, n ≤ q → t.procs q = none := by
  induction actions generalizing s with
  | nil =>
    simp only [run, Option.some.injEq] at executed
    exact executed ▸ ⟨.refl, unused⟩
  | cons a rest ih =>
    simp only [run] at executed
    split at executed
    · rename_i u permitted stepped
      have unused' : ∀ q, n ≤ q → u.procs q = none := by
        intro q late
        refine procs_of_step stepped (unused q late) fun request same => ?_
        have early := starts q request (same ▸ List.mem_cons_self)
        omega
      obtain ⟨runs, last⟩ := ih (fun p request member => starts p request (List.mem_cons_of_mem a member))
        unused' executed
      exact ⟨.head ⟨a, allowed s a unused permitted, stepped⟩ runs, last⟩
    · cases executed

theorem step_eq {s : State M} {p : Nat} {choice : M.Choice} {proc : Proc M} {stmt : L.Stmt}
    {next : L.Result stmt → Prog L M.Value} {result : L.Result stmt} {w : M.World} (found : s.procs p = some proc)
    (rest : proc.rest = .call stmt next) (executed : M.exec p stmt choice s.world = some (result, w)) :
    M.step s (.step p choice) = some ⟨w, Function.update s.procs p
      (some { proc with past := (stmt, s.world) :: proc.past, rest := next result })⟩ := by
  simp [step, found, advance, rest, executed]

theorem alone_call {α : Type} {p : Nat} {choice : M.Choice} {stmt : L.Stmt} {next : L.Result stmt → Prog L α}
    {result : L.Result stmt} {w w' : M.World} (executed : M.exec p stmt choice w = some (result, w')) :
    M.alone p choice (.call stmt next) w = M.alone p choice (next result) w' := by
  simp only [alone, executed]

theorem alone_call_cases {α : Type} {p : Nat} {choice : M.Choice} {stmt : L.Stmt}
    {next : L.Result stmt → Prog L α}
    {outcome : Except L.Error α} {w w' : M.World}
    (executed : M.alone p choice (.call stmt next) w = some (outcome, w')) :
    ∃ result u, M.exec p stmt choice w = some (result, u) ∧
    M.alone p choice (next result) u = some (outcome, w') := by
  simp only [alone] at executed
  split at executed
  · cases executed
  · rename_i result u stepped
    exact ⟨result, u, stepped, executed⟩

theorem alone_bind {α β : Type} {p : Nat} {choice : M.Choice} {prog : Prog L α} {f : α → Prog L β}
    {w w' : M.World} {value : α} (returns : M.alone p choice prog w = some (.ok value, w')) :
    M.alone p choice (prog >>= f) w = M.alone p choice (f value) w' := by
  induction prog generalizing w with
  | ret value => cases returns; rfl
  | raise error => cases returns
  | call s next ih =>
    simp only [alone] at returns
    simp only [Prog.call_bind, alone]
    split at returns
    · cases returns
    · exact ih _ returns

theorem alone_bind_error {α β : Type} {p : Nat} {choice : M.Choice} {prog : Prog L α} {f : α → Prog L β}
    {w w' : M.World} {error : L.Error} (raises : M.alone p choice prog w = some (.error error, w')) :
    M.alone p choice (prog >>= f) w = some (.error error, w') := by
  induction prog generalizing w with
  | ret value => cases raises
  | raise error => cases raises; rfl
  | call s next ih =>
    simp only [alone] at raises
    simp only [Prog.call_bind, alone]
    split at raises
    · cases raises
    · exact ih _ raises

theorem alone_bind_cases {α β : Type} {p : Nat} {choice : M.Choice} {prog : Prog L α} {f : α → Prog L β}
    {w w' : M.World}
    {outcome : Except L.Error β} (executed : M.alone p choice (prog >>= f) w = some (outcome, w')) :
    (∃ value u, M.alone p choice prog w = some (.ok value, u) ∧
      M.alone p choice (f value) u = some (outcome, w')) ∨
    ∃ error, M.alone p choice prog w = some (.error error, w') ∧ outcome = .error error := by
  induction prog generalizing w with
  | ret value => exact .inl ⟨value, w, rfl, executed⟩
  | raise error =>
    cases executed
    exact .inr ⟨error, rfl, rfl⟩
  | call s next ih =>
    simp only [Prog.call_bind, alone] at executed
    simp only [alone]
    split at executed
    · cases executed
    · exact ih _ executed

theorem alone_attempt {α : Type} {p : Nat} {choice : M.Choice} {prog : Prog L α} {handler : L.Error → Prog L α}
    {w w' : M.World} {value : α} (returns : M.alone p choice prog w = some (.ok value, w')) :
    M.alone p choice (prog.attempt handler) w = some (.ok value, w') := by
  induction prog generalizing w with
  | ret value => cases returns; rfl
  | raise error => cases returns
  | call s next ih =>
    simp only [alone] at returns
    simp only [Prog.attempt_call, alone]
    split at returns
    · cases returns
    · exact ih _ returns

theorem alone_attempt_error {α : Type} {p : Nat} {choice : M.Choice} {prog : Prog L α}
    {handler : L.Error → Prog L α}
    {w w' : M.World} {error : L.Error} (raises : M.alone p choice prog w = some (.error error, w')) :
    M.alone p choice (prog.attempt handler) w = M.alone p choice (handler error) w' := by
  induction prog generalizing w with
  | ret value => cases raises
  | raise error => cases raises; rfl
  | call s next ih =>
    simp only [alone] at raises
    simp only [Prog.attempt_call, alone]
    split at raises
    · cases raises
    · exact ih _ raises

theorem found_update {procs : Nat → Option (Proc M)} {p q : Nat} {proc proc' : Proc M}
    (found : Function.update procs q (some proc') p = some proc) :
    p = q ∧ proc = proc' ∨ p ≠ q ∧ procs p = some proc := by
  by_cases same : p = q
  · subst same
    rw [Function.update_self, Option.some.injEq] at found
    exact .inl ⟨rfl, found.symm⟩
  · exact .inr ⟨same, (Function.update_of_ne same ..).symm.trans found⟩

theorem idle_update {procs : Nat → Option (Proc M)} {p q : Nat} {proc : Proc M}
    (idle : Function.update procs q (some proc) p = none) : p ≠ q ∧ procs p = none := by
  by_cases same : p = q
  · subst same
    rw [Function.update_self] at idle
    cases idle
  · exact ⟨same, (Function.update_of_ne same ..).symm.trans idle⟩

theorem forall_update {Q : Proc M → Prop} {procs : Nat → Option (Proc M)}
    (all : ∀ r proc, procs r = some proc → Q proc)
    {q : Nat} {proc : Proc M} (new : Q proc) (r : Nat) (proc' : Proc M)
    (found : Function.update procs q (some proc) r = some proc') : Q proc' := by
  rcases found_update found with ⟨rfl, rfl⟩ | ⟨_, found⟩
  · exact new
  · exact all r proc' found

/-- Every statement was executed in a world that the run has come through. -/
theorem Runs.past {ok : State M → Action M → Prop} {w : M.World} {s : State M}
    (runs : M.Runs ok (M.initial w) s) : ∀ p proc, s.procs p = some proc → ∀ executed ∈ proc.past,
      ∃ u, M.Runs ok (M.initial w) u ∧ M.Runs ok u s ∧ u.world = executed.2 := by
  induction runs with
  | refl => exact fun p proc found => by cases found
  | @tail s t runs stepped ih =>
    have further : ∀ proc : Proc M, (∀ executed ∈ proc.past, ∃ u,
        M.Runs ok (M.initial w) u ∧ M.Runs ok u s ∧
        u.world = executed.2) → ∀ executed ∈ proc.past, ∃ u, M.Runs ok (M.initial w) u ∧ M.Runs ok u t ∧
          u.world = executed.2 := by
      intro proc before executed member
      obtain ⟨u, first, second, same⟩ := before executed member
      exact ⟨u, first, second.tail stepped, same⟩
    have earlier := fun p proc found => further proc (ih p proc found)
    have now := stepped
    obtain ⟨a, allowed, stepped⟩ := stepped
    rcases step_cases stepped with ⟨q, request, rfl, fresh, rfl⟩ |
      ⟨q, choice, before, stmt, next, result, w', rfl, found, rest, executed, rfl⟩ |
      ⟨q, before, rfl, found, running, rfl⟩ | ⟨q, before, rfl, found, finished, rfl⟩ |
        ⟨e, w', rfl, ticked, rfl⟩
    · exact forall_update earlier fun executed member => by cases member
    · refine forall_update earlier fun executed member => ?_
      rcases List.mem_cons.1 member with rfl | member
      · exact ⟨s, runs, .single now, rfl⟩
      · exact earlier q before found executed member
    · exact forall_update earlier (earlier q before found)
    · exact earlier
    · exact earlier

theorem Runs.requests {ok : State M → Action M → Prop} {Φ : M.Request → Prop} {w : M.World} {s : State M}
    (started : ∀ {s p request}, M.Runs ok (M.initial w) s → ok s (.start p request) → Φ request)
    (runs : M.Runs ok (M.initial w) s) : ∀ p proc, s.procs p = some proc → Φ proc.request := by
  induction runs with
  | refl => exact fun p proc found => by cases found
  | tail runs stepped ih =>
    obtain ⟨a, allowed, stepped⟩ := stepped
    rcases step_cases stepped with ⟨q, request, rfl, fresh, rfl⟩ |
      ⟨q, choice, before, stmt, next, result, w', rfl, found, rest, executed, rfl⟩ |
      ⟨q, before, rfl, found, running, rfl⟩ | ⟨q, before, rfl, found, finished, rfl⟩ |
        ⟨e, w', rfl, ticked, rfl⟩
    · exact forall_update ih (started runs allowed)
    · exact forall_update (Q := fun proc => Φ proc.request) ih (ih q before found)
    · exact forall_update (Q := fun proc => Φ proc.request) ih (ih q before found)
    · exact ih
    · exact ih

/-- What every statement in `P` keeps holds in every run of programs that execute no other statements. -/
theorem Runs.always {J : M.World → Prop} {fine : (s : L.Stmt) → L.Result s → Prop} {P : L.Stmt → Prop}
    {ok : State M → Action M → Prop} (body : ∀ request, (M.body request).Always fine P fun _ => True)
    (execute : ∀ {p stmt choice result w w'}, J w → P stmt → M.exec p stmt choice w = some (result, w') →
      fine stmt result ∧ J w')
    (close : ∀ {p w}, J w → J (M.close p w))
    (tick : ∀ {s e w'}, J s.world → ok s (.tick e) → M.tick e s.world = some w' → J w')
    {w : M.World} {s : State M} (runs : M.Runs ok (M.initial w) s) (start : J w) :
    J s.world ∧ ∀ p proc, s.procs p = some proc → (proc.rest.Always fine P fun _ => True) := by
  induction runs with
  | refl => exact ⟨start, fun p proc found => by cases found⟩
  | tail _ stepped ih =>
    obtain ⟨a, allowed, stepped⟩ := stepped
    obtain ⟨kept, programs⟩ := ih
    rcases step_cases stepped with ⟨q, request, rfl, fresh, rfl⟩ |
      ⟨q, choice, before, stmt, next, result, w', rfl, found, rest, executed, rfl⟩ |
      ⟨q, before, rfl, found, running, rfl⟩ | ⟨q, before, rfl, found, finished, rfl⟩ |
        ⟨e, w', rfl, ticked, rfl⟩
    · exact ⟨kept, forall_update programs (body request)⟩
    · have always := programs q before found
      rw [rest] at always
      obtain ⟨accepted, kept'⟩ := execute kept always.1 executed
      exact ⟨kept', forall_update programs (always.2 result accepted)⟩
    · exact ⟨kept, forall_update programs trivial⟩
    · exact ⟨close kept, programs⟩
    · exact ⟨tick kept allowed ticked, programs⟩

theorem rest_cases {s t : State M} {a : Action M} (stepped : M.step s a = some t) {p : Nat} {proc : Proc M}
    (found : s.procs p = some proc) :
    t.procs p = some proc ∨
    ∃ after, t.procs p = some after ∧ ¬proc.rest.Finished ∧ (after.rest = .raise M.failure ∨
      ∃ stmt next result, proc.rest = .call stmt next ∧ after.rest = next result) := by
  rcases step_cases stepped with ⟨q, request, rfl, fresh, rfl⟩ |
    ⟨q, choice, before, stmt, next, result, w, rfl, found', rest, executed, rfl⟩ |
    ⟨q, before, rfl, found', running, rfl⟩ | ⟨q, before, rfl, found', finished', rfl⟩ |
      ⟨e, w, rfl, ticked, rfl⟩
  · have other : p ≠ q := fun same => by simp [← same, found] at fresh
    exact .inl (by simpa [Function.update_of_ne other] using found)
  · by_cases same : p = q
    · subst same
      cases found.symm.trans found'
      refine .inr ⟨_, Function.update_self
        .., by simp [rest, Prog.Finished], .inr ⟨stmt, next, result, rest, rfl⟩⟩
    · exact .inl (by simpa [Function.update_of_ne same] using found)
  · by_cases same : p = q
    · subst same
      cases found.symm.trans found'
      exact .inr ⟨_, Function.update_self .., running, .inl rfl⟩
    · exact .inl (by simpa [Function.update_of_ne same] using found)
  · exact .inl found
  · exact .inl found

theorem request_of_step {s t : State M} {a : Action M} (stepped : M.step s a = some t) {p : Nat} {proc : Proc M}
    (found : s.procs p = some proc) : ∃ after, t.procs p = some after ∧ after.request = proc.request := by
  have updated : ∀ {q : Nat} {before after : Proc M}, s.procs q = some before → after.request = before.request →
      ∃ later, Function.update s.procs q (some after) p = some later ∧ later.request = proc.request := by
    intro q before after found' same
    by_cases mine : p = q
    · subst mine
      cases found.symm.trans found'
      exact ⟨after, Function.update_self .., same⟩
    · exact ⟨proc, (Function.update_of_ne mine ..).trans found, rfl⟩
  rcases step_cases stepped with ⟨q, request, rfl, fresh, rfl⟩ |
    ⟨q, choice, before, stmt, next, result, w, rfl, found', rest, executed, rfl⟩ |
    ⟨q, before, rfl, found', running, rfl⟩ | ⟨q, before, rfl, found', finished, rfl⟩ |
      ⟨e, w, rfl, ticked, rfl⟩
  · have other : p ≠ q := fun same => by simp [← same, found] at fresh
    exact ⟨proc, (Function.update_of_ne other ..).trans found, rfl⟩
  · exact updated found' rfl
  · exact updated found' rfl
  · exact ⟨proc, found, rfl⟩
  · exact ⟨proc, found, rfl⟩

/-- Along an infinite run a process executes only finitely many statements. -/
theorem settles {path : Nat → State M}
    (steps : ∀ n, ∃ a, M.step (path n) a = some (path (n + 1))) {p start : Nat}
    {proc : Proc M} (found : (path start).procs p = some proc) :
    ∃ settled last, start ≤ settled ∧ ∀ n, settled ≤ n → (path n).procs p = some last := by
  -- the program is a tree of finite depth, and each own step goes down in it
  have remains : ∀ {first proc}, (path first).procs p = some proc → proc.rest.Finished →
      ∀ n, first ≤ n → (path n).procs p = some proc := by
    intro first proc found finished n later
    induction later with
    | refl => exact found
    | step later ih =>
      obtain ⟨a, stepped⟩ := steps _
      rcases rest_cases stepped ih with same | ⟨after, _, running, _⟩
      · exact same
      · exact absurd finished running
  obtain ⟨rest, equal⟩ : ∃ rest, proc.rest = rest := ⟨_, rfl⟩
  induction rest generalizing start proc with
  | ret value => exact ⟨start, proc, Nat.le_refl _, remains found (by rw [equal]; trivial)⟩
  | raise error => exact ⟨start, proc, Nat.le_refl _, remains found (by rw [equal]; trivial)⟩
  | call s next ih =>
    by_cases still : ∀ n, start ≤ n → (path n).procs p = some proc
    · exact ⟨start, proc, Nat.le_refl _, still⟩
    · have moves : ∃ n, start ≤ n ∧ (path n).procs p = some proc ∧ (path (n + 1)).procs p ≠ some proc := by
        by_contra never
        refine still fun n later => ?_
        induction later with
        | refl => exact found
        | step later same => exact Classical.byContradiction fun moved => never ⟨_, later, same, moved⟩
      obtain ⟨n, later, same, moved⟩ := moves
      obtain ⟨a, stepped⟩ := steps n
      rcases rest_cases stepped same with same' |
        ⟨after, found', _, failed | ⟨stmt, next', result, call, advanced⟩⟩
      · exact absurd same' moved
      · exact ⟨n + 1, after, by omega, remains found' (by rw [failed]; trivial)⟩
      · cases equal.symm.trans call
        obtain ⟨settled, last, later', stays⟩ := ih result found' advanced
        exact ⟨settled, last, by omega, stays⟩

end Machine
end Concurrency
