import LedgerFlow.Concurrency.Sequel

/-! Statements that can be put aside: what the other statements do, and what a program comes to, does not
depend on their results, so every run has a mirror in which they all fail. -/

namespace Concurrency
variable {L : Language} {M : Machine L} {α : Type}

/-- Which statements are put aside, what they return then and by which choice, and which worlds differ in
nothing that the other statements see. -/
structure Aside (M : Machine L) where
  stmt : L.Stmt → Bool
  result : (s : L.Stmt) → stmt s → L.Result s
  choice : M.Choice
  same : M.World → M.World → Prop
  equivalence : Equivalence same
  returns : ∀ p {s} (aside : stmt s) w, ∃ w', M.exec p s choice w = some (result s aside, w')
  silent : ∀ {p s c w r w'}, stmt s → M.exec p s c w = some (r, w') → same w w'
  exec : ∀ {p s c w v r w'}, ¬stmt s → same w v → M.exec p s c w = some (r, w') →
    ∃ v', M.exec p s c v = some (r, v') ∧ same w' v'
  close : ∀ p {w v}, same w v → same (M.close p w) (M.close p v)
  tick : ∀ {e w v w'}, same w v → M.tick e w = some w' → ∃ v', M.tick e v = some v' ∧ same w' v'

namespace Aside
variable {β : Type} (A : Aside M)

/-- What is left of a program when its statements that are put aside have all failed. -/
def erase : Prog L α → Prog L α
  | .ret value => .ret value
  | .raise error => .raise error
  | .call s next =>
    if aside : A.stmt s then erase (next (A.result s aside)) else .call s fun result => erase (next result)

def Indifferent : Prog L α → Prop
  | .ret _ => True
  | .raise _ => True
  | .call s next => (A.stmt s → ∀ r r', A.erase (next r) = A.erase (next r')) ∧ ∀ r, Indifferent (next r)

def Awake (prog : Prog L α) : Prop := ∀ s, prog.head = some s → ¬A.stmt s

variable {A}

theorem erase_aside {s : L.Stmt} {next : L.Result s → Prog L α} (aside : A.stmt s) :
    A.erase (.call s next) = A.erase (next (A.result s aside)) := dif_pos aside

theorem erase_call {s : L.Stmt} {next : L.Result s → Prog L α} (awake : ¬A.stmt s) :
    A.erase (.call s next) = .call s fun result => A.erase (next result) := dif_neg awake

theorem erase_bind {prog : Prog L α} {f : α → Prog L β} :
    A.erase (prog >>= f) = A.erase prog >>= fun value => A.erase (f value) := by
  induction prog with
  | ret value => rfl
  | raise error => rfl
  | call s next ih =>
    by_cases aside : A.stmt s
    · rw [erase_aside aside, Prog.call_bind, erase_aside aside, ih]
    · rw [erase_call aside, Prog.call_bind, erase_call aside, Prog.call_bind]
      exact congrArg (Prog.call s) (funext ih)

namespace Indifferent

theorem bind {prog : Prog L α} {f : α → Prog L β} (first : A.Indifferent prog)
    (second : ∀ value, A.Indifferent (f value)) : A.Indifferent (prog >>= f) := by
  induction prog with
  | ret value => exact second value
  | raise error => trivial
  | call s next ih =>
    refine ⟨fun aside r r' => ?_, fun result => ih result (first.2 result)⟩
    change A.erase (next r >>= f) = A.erase (next r' >>= f)
    rw [erase_bind, erase_bind, first.1 aside r r']

theorem call {s : L.Stmt} {next : L.Result s → Prog L α} (awake : ¬A.stmt s)
    (rest : ∀ r, A.Indifferent (next r)) : A.Indifferent (.call s next) :=
  ⟨fun aside => absurd aside awake, rest⟩

theorem ite {c : Prop} [Decidable c] {x y : Prog L α} (yes : A.Indifferent x) (no : A.Indifferent y) :
    A.Indifferent (if c then x else y) := by
  split
  · exact yes
  · exact no

end Indifferent

/-- The mirror of a process that is cut off may have come to its end before. -/
inductive Matches (A : Aside M) : Prog L M.Value → Prog L M.Value → Prop where
  | equal {x y : Prog L M.Value} (erased : A.erase x = A.erase y) (awake : A.Awake y) : Matches A x y
  | cut {y : Prog L M.Value} (finished : y.Finished) : Matches A (.raise M.failure) y

theorem Matches.finished {x y : Prog L M.Value} (pair : A.Matches x y) (finished : x.Finished) : y.Finished := by
  cases pair with
  | cut ended => exact ended
  | equal erased awake =>
    cases y with
    | ret value => trivial
    | raise error => trivial
    | call s next =>
      rw [erase_call (awake s rfl)] at erased
      cases x with
      | ret value => cases erased
      | raise error => cases erased
      | call s' next' => exact finished.elim

theorem Matches.value {value : M.Value} {y : Prog L M.Value} (pair : A.Matches (.ret value) y) : y = .ret value := by
  cases pair with
  | equal erased awake =>
    cases y with
    | ret value' => exact erased.symm
    | raise error => cases erased
    | call s next =>
      rw [erase_call (awake s rfl)] at erased
      cases erased

theorem Matches.error {error : L.Error} {y : Prog L M.Value} (pair : A.Matches (.raise error) y)
    (alive : error ≠ M.failure) : y = .raise error := by
  cases pair with
  | cut => exact absurd rfl alive
  | equal erased awake =>
    cases y with
    | ret value => cases erased
    | raise error' => exact erased.symm
    | call s next =>
      rw [erase_call (awake s rfl)] at erased
      cases erased

structure Quiet (A : Aside M) (ignored : M.Request → Prop) (s : State M) (a : Action M) : Prop where
  starts : ∀ p request, a = .start p request → ¬ignored request
  fails : ∀ p c proc stmt next, a = .step p c → s.procs p = some proc →
    proc.rest = .call stmt next → A.stmt stmt → c = A.choice

/-- The mirror of a state runs the same processes but for the ignored ones. -/
structure Mirrors (A : Aside M) (ignored : M.Request → Prop) (s t : State M) : Prop where
  world : A.same s.world t.world
  unstarted : ∀ p, s.procs p = none → t.procs p = none
  absent : ∀ p proc, s.procs p = some proc → ignored proc.request → t.procs p = none
  pair : ∀ p proc, s.procs p = some proc → ¬ignored proc.request →
    ∃ proc', t.procs p = some proc' ∧ proc'.request = proc.request ∧ A.Matches proc.rest proc'.rest

variable {ignored : M.Request → Prop} {ok : State M → Action M → Prop} {s s' t u : State M}
  {p : Nat} {proc : Proc M}

theorem wakes (A : Aside M) (ignored : M.Request → Prop) (t : State M) (found : t.procs p = some proc) :
    ∃ u after, M.Runs (A.Quiet ignored) t u ∧ A.same t.world u.world ∧ u.procs p = some after ∧
      after.request = proc.request ∧ A.erase after.rest = A.erase proc.rest ∧ A.Awake after.rest ∧
        ∀ q, q ≠ p → u.procs q = t.procs q := by
  obtain ⟨request, started, past, rest⟩ := proc
  induction rest generalizing t past with
  | ret value => exact ⟨t, _, .refl, A.equivalence.refl _, found, rfl, rfl, nofun, fun _ _ => rfl⟩
  | raise error => exact ⟨t, _, .refl, A.equivalence.refl _, found, rfl, rfl, nofun, fun _ _ => rfl⟩
  | call stmt next ih =>
    by_cases aside : A.stmt stmt
    · obtain ⟨w', executed⟩ := A.returns p aside t.world
      have stepped := Machine.step_eq found rfl executed
      have found' : State.procs (⟨w', Function.update t.procs p (some ⟨request, started, (stmt, t.world) :: past,
          next (A.result stmt aside)⟩)⟩ : State M) p =
          some ⟨request, started, (stmt, t.world) :: past, next (A.result stmt aside)⟩ := Function.update_self ..
      obtain ⟨u, after, runs, same, found', request', erased, awake, others⟩ :=
        ih (A.result stmt aside) _ _ found'
      have quiet : A.Quiet ignored t (.step p A.choice) := ⟨nofun, fun _ _ _ _ _ same _ _ _ => by cases same; rfl⟩
      refine ⟨u, after, .head ⟨_, quiet, stepped⟩ runs, A.equivalence.trans (A.silent aside executed) same,
        found', request', ?_, awake, fun q other => ?_⟩
      · rw [erased, erase_aside aside]
      · rw [others q other]
        exact Function.update_of_ne other ..
    · refine ⟨t, _, .refl, A.equivalence.refl _, found, rfl, rfl, ?_, fun _ _ => rfl⟩
      intro s same
      cases same
      exact aside

theorem Mirrors.update (mirrors : A.Mirrors ignored s t) (world : A.same s'.world u.world)
    (others : ∀ q, q ≠ p → s'.procs q = s.procs q) (others' : ∀ q, q ≠ p → u.procs q = t.procs q)
    (own : ∃ proc proc', s'.procs p = some proc ∧ ¬ignored proc.request ∧ u.procs p = some proc' ∧
      proc'.request = proc.request ∧ A.Matches proc.rest proc'.rest) : A.Mirrors ignored s' u := by
  obtain ⟨proc, proc', found, heeded, found', request, pair⟩ := own
  refine ⟨world, fun q idle => ?_, fun q other listed aside => ?_, fun q other listed heeded' => ?_⟩
  · by_cases same : q = p
    · subst same
      cases found.symm.trans idle
    · rw [others' q same]
      exact mirrors.unstarted q ((others q same).symm.trans idle)
  · by_cases same : q = p
    · subst same
      cases found.symm.trans listed
      exact absurd aside heeded
    · rw [others' q same]
      exact mirrors.absent q other ((others q same).symm.trans listed) aside
  · by_cases same : q = p
    · subst same
      cases found.symm.trans listed
      exact ⟨proc', found', request, pair⟩
    · rw [others' q same]
      exact mirrors.pair q other ((others q same).symm.trans listed) heeded'

theorem Mirrors.ignore (mirrors : A.Mirrors ignored s t) (world : A.same s.world s'.world)
    (others : ∀ q, q ≠ p → s'.procs q = s.procs q)
    (own : ∃ proc, s'.procs p = some proc ∧ ignored proc.request)
    (absent : t.procs p = none) : A.Mirrors ignored s' t := by
  obtain ⟨proc, found, aside⟩ := own
  refine ⟨A.equivalence.trans (A.equivalence.symm world) mirrors.world, fun q idle => ?_,
    fun q other listed aside' => ?_, fun q other listed heeded => ?_⟩
  · by_cases same : q = p
    · subst same
      exact absent
    · exact mirrors.unstarted q ((others q same).symm.trans idle)
  · by_cases same : q = p
    · subst same
      exact absent
    · exact mirrors.absent q other ((others q same).symm.trans listed) aside'
  · by_cases same : q = p
    · subst same
      cases found.symm.trans listed
      exact absurd aside heeded
    · exact mirrors.pair q other ((others q same).symm.trans listed) heeded

theorem Mirrors.wake (mirrors : A.Mirrors ignored s t) (runs : M.Runs (A.Quiet ignored) t u)
    (world : A.same s'.world u.world) (others : ∀ q, q ≠ p → s'.procs q = s.procs q)
    (others' : ∀ q, q ≠ p → u.procs q = t.procs q) {proc' : Proc M} (found : s'.procs p = some proc)
    (found' : u.procs p = some proc') (heeded : ¬ignored proc.request) (request : proc'.request = proc.request)
    (erased : A.erase proc.rest = A.erase proc'.rest) : ∃ v, M.Runs (A.Quiet ignored) t v ∧
    A.Mirrors ignored s' v := by
  obtain ⟨v, after, later, same, found'', request', erased', awake, others''⟩ := wakes A ignored u found'
  refine ⟨v, runs.trans later, mirrors.update (A.equivalence.trans world same) others ?_ ?_⟩
  · intro q other
    rw [others'' q other, others' q other]
  · exact ⟨proc, after, found, heeded, found'', request'.trans request, .equal (erased.trans erased'.symm) awake⟩

theorem Mirrors.step {a : Action M} (mirrors : A.Mirrors ignored s t) (stepped : M.step s a = some s')
    (indifferent : ∀ p proc, s.procs p = some proc → ¬ignored proc.request → A.Indifferent proc.rest)
    (hushed : ∀ p proc, s.procs p = some proc → ignored proc.request →
      (∃ c, a = .step p c) ∨ a = .close p →
      A.same s.world s'.world) : ∃ u, M.Runs (A.Quiet ignored) t u ∧ A.Mirrors ignored s' u := by
  rcases Machine.step_cases stepped with ⟨p, request, rfl, fresh, rfl⟩ |
    ⟨p, choice, proc, stmt, next, result, w', rfl, found, rest, executed, rfl⟩ |
    ⟨p, proc, rfl, found, running, rfl⟩ | ⟨p, proc, rfl, found, finished, rfl⟩ | ⟨e, w', rfl, ticked, rfl⟩
  · by_cases aside : ignored request
    · exact ⟨t, .refl, mirrors.ignore (A.equivalence.refl _) (fun q other => Function.update_of_ne other ..)
        ⟨_, Function.update_self .., aside⟩ (mirrors.unstarted p fresh)⟩
    · have started : M.step t (.start p request) =
          some ⟨t.world, Function.update t.procs p (some (M.spawn request t.world))⟩ := by
        simp only [Machine.step, mirrors.unstarted p fresh]
      have quiet : A.Quiet ignored t (.start p request) :=
        ⟨fun _ _ same => (by cases same; exact aside), fun _ _ _ _ _ same => by cases same⟩
      exact mirrors.wake (.single ⟨_, quiet, started⟩) mirrors.world
        (fun q other => Function.update_of_ne other ..)
        (fun q other => Function.update_of_ne other ..) (Function.update_self ..)
          (Function.update_self ..) aside rfl rfl
  · by_cases aside : ignored proc.request
    · exact ⟨t, .refl, mirrors.ignore (hushed p proc found aside (.inl ⟨choice, rfl⟩))
        (fun q other => Function.update_of_ne other ..) ⟨_, Function.update_self .., aside⟩
          (mirrors.absent p proc found aside)⟩
    · obtain ⟨proc', found', request, pair⟩ := mirrors.pair p proc found aside
      have free := indifferent p proc found aside
      rw [rest] at pair free
      cases pair with
      | equal erased awake =>
      by_cases quiet : A.stmt stmt
      · -- the mirror has this statement behind it
        refine ⟨t, .refl, mirrors.update (A.equivalence.trans
          (A.equivalence.symm (A.silent quiet executed)) mirrors.world)
          (fun q other => Function.update_of_ne other ..) (fun _ _ => rfl)
            ⟨_, proc', Function.update_self .., aside, found',
          request, .equal ?_ awake⟩⟩
        rw [← erased, erase_aside quiet]
        exact free.1 quiet _ _
      · rw [erase_call quiet] at erased
        obtain ⟨request', started, past, rest'⟩ := proc'
        cases rest' with
        | ret value => cases erased
        | raise error => cases erased
        | call stmt' next' =>
          rw [erase_call (awake stmt' rfl)] at erased
          injection erased with same equal
          subst same
          obtain ⟨v', executed', world⟩ := A.exec quiet mirrors.world executed
          have stepped' := Machine.step_eq found' rfl executed'
          have allowed : A.Quiet ignored t (.step p choice) := by
            refine ⟨fun _ _ same => (by cases same), fun q c proc s next same listed called absurd => ?_⟩
            cases same
            cases found'.symm.trans listed
            cases called
            exact False.elim (quiet absurd)
          exact mirrors.wake (.single ⟨_, allowed, stepped'⟩) world
            (fun q other => Function.update_of_ne other ..)
            (fun q other => Function.update_of_ne other ..) (Function.update_self ..)
              (Function.update_self ..) aside request
            (congrFun (eq_of_heq equal) result)
  · by_cases aside : ignored proc.request
    · exact ⟨t, .refl, mirrors.ignore (A.equivalence.refl _) (fun q other => Function.update_of_ne other ..)
        ⟨_, Function.update_self .., aside⟩ (mirrors.absent p proc found aside)⟩
    · obtain ⟨proc', found', request, pair⟩ := mirrors.pair p proc found aside
      by_cases ended : proc'.rest.Finished
      · exact ⟨t, .refl, mirrors.update mirrors.world (fun q other => Function.update_of_ne other ..)
          (fun _ _ => rfl) ⟨_, proc', Function.update_self .., aside, found', request, .cut ended⟩⟩
      · have cut : M.step t (.abort p) =
            some ⟨t.world, Function.update t.procs p (some { proc' with rest := .raise M.failure })⟩ := by
          simp only [Machine.step, found', if_neg ended]
        have allowed : A.Quiet ignored t (.abort p) :=
          ⟨fun _ _ same => (by cases same), fun _ _ _ _ _ same => by cases same⟩
        exact ⟨_, .single ⟨_, allowed, cut⟩,
          mirrors.update mirrors.world (fun q other => Function.update_of_ne other ..)
          (fun q other => Function.update_of_ne other ..)
            ⟨_, _, Function.update_self .., aside, Function.update_self ..,
          request, .equal rfl fun _ called => by cases called⟩⟩
  · by_cases aside : ignored proc.request
    · have world := hushed p proc found aside (.inr rfl)
      exact ⟨t, .refl, A.equivalence.trans (A.equivalence.symm world) mirrors.world,
        mirrors.unstarted, mirrors.absent, mirrors.pair⟩
    · obtain ⟨proc', found', request, pair⟩ := mirrors.pair p proc found aside
      have closed : M.step t (.close p) = some { t with world := M.close p t.world } := by
        simp only [Machine.step, found', if_pos (pair.finished finished)]
      have allowed : A.Quiet ignored t (.close p) :=
        ⟨fun _ _ same => (by cases same), fun _ _ _ _ _ same => by cases same⟩
      exact ⟨_, .single ⟨_, allowed, closed⟩, A.close p mirrors.world, mirrors.unstarted,
        mirrors.absent, mirrors.pair⟩
  · obtain ⟨v', ticked', world⟩ := A.tick mirrors.world ticked
    have allowed : A.Quiet ignored t (.tick e) :=
      ⟨fun _ _ same => (by cases same), fun _ _ _ _ _ same => by cases same⟩
    exact ⟨_, .single ⟨_, allowed, Machine.step_tick ticked'⟩, world, mirrors.unstarted,
      mirrors.absent, mirrors.pair⟩

/-- Every run has a mirror: nothing ignored is started in it, and every statement that is put aside fails. -/
theorem mirror_of_runs {w : M.World} (body : ∀ request, ¬ignored request → A.Indifferent (M.body request))
    (hushed : ∀ {s s' a p proc}, M.Runs ok (M.initial w) s → M.step s a = some s' → s.procs p = some proc →
      ignored proc.request → (∃ c, a = .step p c) ∨ a = .close p → A.same s.world s'.world)
    (runs : M.Runs ok (M.initial w) s) : ∃ t, M.Runs (A.Quiet ignored) (M.initial w) t ∧
    A.Mirrors ignored s t := by
  induction runs with
  | refl => exact ⟨_, .refl, A.equivalence.refl w, fun _ _ => rfl, nofun, nofun⟩
  | tail runs stepped ih =>
    obtain ⟨a, _, stepped⟩ := stepped
    obtain ⟨t, mirroring, mirrors⟩ := ih
    have indifferent := Machine.Runs.programs
      (Φ := fun request prog => ¬ignored request → A.Indifferent prog) body
      (fun _ _ _ result _ before heeded => (before heeded).2 result) (fun _ _ => trivial) runs
    obtain ⟨u, later, mirrors⟩ := mirrors.step stepped indifferent fun p proc => hushed runs stepped
    exact ⟨u, mirroring.trans later, mirrors⟩

end Aside
end Concurrency
