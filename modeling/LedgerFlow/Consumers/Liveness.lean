import LedgerFlow.Concurrency.Diary
import LedgerFlow.Concurrency.Liveness
import LedgerFlow.Consumers.Deadlock

/-! The calls of the consumers come to their end: none executes more than nine statements, and as long as the
transfers in progress form no cycle all calls can be brought to their end from wherever they are. -/

namespace LedgerFlow.Consumers
open Concurrency

abbrev Brief {α : Type} (prog : Code α) (n : ℕ) : Prop := prog.Within (L := language) (fun _ _ => True) n

namespace Brief
variable {α β : Type} {n : ℕ}

theorem checked {result : Except PyError α} {next : α → Code β}
    (rest : ∀ value, result = .ok value → Brief (next value) n) :
    Brief (Consumers.checked result >>= next) n := by
  cases result with
  | error error => trivial
  | ok value => exact rest value rfl

theorem commitMessageOffset (message : Message) : Brief (Consumers.commitMessageOffset message) 1 := by
  apply Prog.Within.call
  intro result _
  cases result <;> trivial

theorem applyAll (changes : List (UUID × Decimal.Number)) : Brief (Consumers.applyAll changes)
    (2 * changes.length) := by
  induction changes with
  | nil => trivial
  | cons change changes ih =>
    apply Prog.Within.call
    intro now _
    apply Prog.Within.call
    intro result _
    cases result with
    | error error => trivial
    | ok => exact ih

theorem applyBalanceProjection (event : Json) : Brief (Consumers.applyBalanceProjection event) 4 := by
  rw [applyBalanceProjection_eq]
  apply checked
  intro changes decoded
  have few := length_deltas event changes decoded
  exact (applyAll changes).mono (by omega)

theorem processEvent (message : Message) (eventId : UUID) (eventType : Json) :
    Brief (Consumers.processEvent message eventId eventType) 7 := by
  apply Prog.Within.call
  intro processedAt _
  apply Prog.Within.call
  intro flushed _
  cases flushed with
  | ok =>
    have rest : Brief (Consumers.commit >>= fun _ => (.ret true : Code Bool)) 1 := .call fun _ _ => trivial
    exact Prog.Within.bind (applyBalanceProjection message.value) fun _ => rest
  | error error =>
    have again : Brief (Consumers.rollback >>= fun _ => Consumers.commitMessageOffset message >>= fun _ =>
        (.ret false : Code Bool)) 4 := by
      apply Prog.Within.call
      intro _ _
      have ended : Brief (.ret false : Code Bool) 2 := trivial
      exact Prog.Within.bind (commitMessageOffset message) fun _ => ended
    cases error
    case integrityError => exact .call fun _ _ => again
    all_goals trivial

theorem processMessage (message : Message) : Brief (Consumers.processMessage message) 9 := by
  apply checked
  intro value _
  apply checked
  intro eventId _
  apply checked
  intro eventType _
  have gives : ∀ error : PyError, Brief (Consumers.rollback >>= fun _ => (.raise error : Code Bool)) 1 :=
    fun _ => .call fun _ _ => trivial
  have ends : ∀ unacknowledged : Bool,
      Brief (if unacknowledged then Consumers.commitMessageOffset message else (.ret () : Code Unit)) 1 := by
    intro unacknowledged
    cases unacknowledged with
    | true => exact commitMessageOffset message
    | false => trivial
  exact Prog.Within.bind (Prog.Within.attempt (processEvent message eventId eventType) gives) ends

end Brief

variable {w : World} {s : State machine} {p q n : ℕ} {ok : State machine → Action machine → Prop}
  {proc : Proc machine} {stmt : Stmt}

theorem within_of_runs (runs : machine.Runs ok (machine.initial w) s) (found : s.procs p = some proc) :
    proc.past.length ≤ 9 ∧ Brief proc.rest (9 - proc.past.length) := by
  have bodies : ∀ message : Message, Brief (machine.body message) ((fun _ => 9) message) := Brief.processMessage
  exact Machine.Runs.within bodies (fun _ _ _ _ => trivial) runs p proc found

/-- The calls execute their statements and end: none starts, none is cut off, and no time passes. The broker
answers each commit of an offset as `broker` says. -/
def Unhindered (broker : State machine → ℕ → Choice) (s : State machine) (a : Action machine) : Prop :=
  (∃ p choice, a = .step p choice ∧ ∀ proc topic partition offset, s.procs p = some proc →
    proc.rest.head = some (.commitOffset topic partition offset) → choice = broker s p) ∨ ∃ p, a = .close p

theorem Unhindered.inOrder {broker : State machine → ℕ → Choice} {a : Action machine}
    (unhindered : Unhindered broker s a) : InOrder s a := by
  rcases unhindered with ⟨p, choice, rfl, _⟩ | ⟨p, rfl⟩
  · exact fun _ _ _ _ other => by cases other
  · exact fun _ _ _ _ other => by cases other

structure Lockless (q : ℕ) (w : World) : Prop where
  processed : ∀ eventId, w.processed.locks eventId ≠ some q
  projections : ∀ accountId, w.projections.locks accountId ≠ some q

theorem Lockless.of_close (q : ℕ) (w : World) : Lockless q (machine.close q w) where
  processed _ held := (Store.locks_finish_iff.1 held).2 rfl
  projections _ held := (Store.locks_finish_iff.1 held).2 rfl

theorem Lockless.close (lockless : Lockless q w) (p : ℕ) : Lockless q (machine.close p w) where
  processed eventId held := lockless.processed eventId (Store.locks_finish_iff.1 held).1
  projections accountId held := lockless.projections accountId (Store.locks_finish_iff.1 held).1

theorem Lockless.not_blocks (lockless : Lockless q w) : ¬Blocks q p w stmt := by
  intro blocks
  cases stmt with
  | insertProcessed eventId _ _ => exact lockless.processed eventId blocks.2
  | upsert accountId _ _ => exact lockless.projections accountId blocks.2
  | _ => exact blocks

theorem lockless_of_idle {trace : List (Executed language)} (opening : w.Opening)
    (traces : machine.Traces ok (machine.initial w) trace s) (idle : s.procs q = none) : Lockless q s.world := by
  have holds := holds_of_traces (p := q) opening traces fun proc found => by cases idle.symm.trans found
  rw [Protocol.phase_of_idle traces idle] at holds
  exact ⟨fun eventId held => List.not_mem_nil (holds.events eventId held),
    fun accountId held => List.not_mem_nil (holds.accounts accountId held)⟩

theorem enabled_or_blocks (answer : Choice) (p : ℕ) (stmt : Stmt) (w : World) :
    (∃ choice result w', exec p stmt choice w = some (result, w') ∧ ∀ topic partition offset,
      stmt = .commitOffset topic partition offset → choice = answer) ∨
    (∀ choice, exec p stmt choice w = none) ∧ ∃ q, Blocks q p w stmt := by
  cases stmt with
  | now | commit | rollback => exact .inl ⟨.proceed, _, _, rfl, fun _ _ _ other => by cases other⟩
  | commitOffset topic partition offset =>
    refine .inl ⟨answer, ?_⟩
    cases answer with
    | proceed => exact ⟨_, _, rfl, fun _ _ _ _ => rfl⟩
    | kafkaDown error => exact ⟨_, _, rfl, fun _ _ _ _ => rfl⟩
  | insertProcessed eventId eventType processedAt =>
    cases done : exec p (.insertProcessed eventId eventType processedAt) .proceed w with
    | some ended => exact .inl ⟨.proceed, ended.1, ended.2, done, fun _ _ _ other => by cases other⟩
    | none =>
      refine .inr ⟨fun choice => by cases choice <;> exact done, ?_⟩
      cases eventType with
      | str text =>
        simp only [exec] at done
        cases stores : varchar 100 text <;> simp only [stores] at done
        case none => cases done
        split_ifs at done with free
        simp only [Store.Free, not_forall] at free
        obtain ⟨q, locked, other⟩ := free
        exact ⟨q, other, locked⟩
      | _ => cases done
  | upsert accountId delta updatedAt =>
    cases done : exec p (.upsert accountId delta updatedAt) .proceed w with
    | some ended => exact .inl ⟨.proceed, ended.1, ended.2, done, fun _ _ _ other => by cases other⟩
    | none =>
      refine .inr ⟨fun choice => by cases choice <;> exact done, ?_⟩
      simp only [exec] at done
      split at done
      · cases done
      · split_ifs at done with free
        · split at done <;> cases done
        · simp only [Store.Free, not_forall] at free
          obtain ⟨q, locked, other⟩ := free
          exact ⟨q, other, locked⟩

def accountsOf (message : Message) : Finset UUID := (((deltas message.value).toOption.getD []).map Prod.fst).toFinset

theorem finite_inFlight (idle : ∀ q, n ≤ q → s.procs q = none) :
    ∃ points : Finset UUID, ∀ x y, InFlight s x y → y ∈ points := by
  use (Finset.range n).biUnion fun q => (s.procs q).elim ∅ fun proc => accountsOf proc.request
  intro x y flies
  obtain ⟨q, proc, found, _, _, changes, decoded, both⟩ := flies
  have below : q < n := by
    by_contra beyond
    cases found.symm.trans (idle q (Nat.le_of_not_lt beyond))
  have listed : y ∈ accountsOf proc.request := by
    unfold accountsOf
    rw [decoded]
    apply List.mem_toFinset.2
    change y ∈ changes.map Prod.fst
    rw [both]
    exact List.mem_cons_of_mem _ List.mem_cons_self
  rw [Finset.mem_biUnion]
  refine ⟨q, Finset.mem_range.2 below, ?_⟩
  rw [found]
  exact listed

/-- Where the sessions of finished calls are closed, a call in progress can execute a statement. -/
theorem unblocked (opening : w.Opening) (runs : machine.Runs InOrder (machine.initial w) s)
    (idle : ∀ q, n ≤ q → s.procs q = none)
    (lockless : ∀ q < n, ∀ proc, s.procs q = some proc → proc.rest.Finished → Lockless q s.world)
    (found : s.procs p = some proc) (running : ¬proc.rest.Finished) (broker : State machine → ℕ → Choice) :
    ∃ q choice t, machine.step s (.step q choice) = some t ∧ Unhindered broker s (.step q choice) := by
  by_contra stuck
  obtain ⟨trace, traces⟩ := runs.traces
  have waits : ∀ q proc, s.procs q = some proc → ¬proc.rest.Finished → ∃ r, WaitsFor s q r := by
    intro q proc found running
    cases rest : proc.rest with
    | ret value =>
      rw [rest] at running
      exact absurd trivial running
    | raise error =>
      rw [rest] at running
      exact absurd trivial running
    | call stmt next =>
      rcases enabled_or_blocks (broker s q) q stmt s.world with ⟨choice, result, w', executed, answers⟩ |
        ⟨blocked, r, blocks⟩
      · apply absurd _ stuck
        refine ⟨q, choice, _, Machine.step_eq found rest executed, .inl ⟨q, choice, rfl, ?_⟩⟩
        intro other topic partition offset found' head
        cases found.symm.trans found'
        rw [rest] at head
        exact answers topic partition offset (Option.some.inj head)
      · refine ⟨r, stmt, ?_, blocked, blocks⟩
        unfold nextStmt
        rw [found]
        exact congrArg Prog.head rest
  have holder : ∀ q r, WaitsFor s q r → ∃ proc, s.procs r = some proc ∧ ¬proc.rest.Finished := by
    intro q r waiting
    obtain ⟨stmt, _, _, blocks⟩ := waiting
    cases started : s.procs r with
    | none => exact absurd blocks (lockless_of_idle opening traces started).not_blocks
    | some proc =>
      refine ⟨proc, rfl, fun finished => ?_⟩
      have below : r < n := by
        by_contra beyond
        cases started.symm.trans (idle r (Nat.le_of_not_lt beyond))
      exact (lockless r below proc started finished).not_blocks blocks
  obtain ⟨points, covers⟩ := finite_inFlight idle
  have passes : ∀ x, (∃ o r, StuckOn s o x r ∧ WaitsFor s o r) → ∃ y, InFlight s x y ∧ ∃ o r,
      StuckOn s o y r ∧ WaitsFor s o r := by
    intro x waiting
    obtain ⟨o, r, stuckOn, waiting⟩ := waiting
    obtain ⟨proc, found, running⟩ := holder o r waiting
    obtain ⟨r', next⟩ := waits r proc found running
    obtain ⟨y, stuckOn', flies⟩ := stuckOn_of_stuckOn opening traces stuckOn next
    exact ⟨y, flies, r, r', stuckOn', next⟩
  obtain ⟨q, first⟩ := waits p proc found running
  obtain ⟨proc', found', running'⟩ := holder p q first
  obtain ⟨r, second⟩ := waits q proc' found' running'
  obtain ⟨x, stuckOn⟩ := stuckOn_of_waits opening traces first.locked.2 second
  exact (acyclic_inFlight runs).not_forever points covers passes x ⟨q, r, stuckOn, second⟩

def Over (s : State machine) : Prop := ∀ p proc, s.procs p = some proc → proc.rest.Finished

structure Underway (w : World) (n : ℕ) (s : State machine) : Prop where
  runs : machine.Runs InOrder (machine.initial w) s
  idle : ∀ q, n ≤ q → s.procs q = none

theorem Underway.closes (underway : Underway w n s) (broker : State machine → ℕ → Choice) :
    ∃ t, machine.Runs (Unhindered broker) s t ∧ t.procs = s.procs ∧ Underway w n t ∧
      ∀ q < n, ∀ proc, s.procs q = some proc → proc.rest.Finished → Lockless q t.world := by
  obtain ⟨t, closing, procs, _, lockless⟩ :=
    Machine.closes (M := machine) (fun _ => True) Lockless (fun _ _ _ => trivial)
    Lockless.of_close (fun p _ _ lockless => lockless.close p) s trivial n
  have ahead : machine.Runs (Unhindered broker) s t := Machine.Runs.mono (fun _ _ closes => .inr closes) closing
  refine ⟨t, ahead, procs, ⟨underway.runs.trans (ahead.mono fun _ _ unhindered => unhindered.inOrder),
    fun q beyond => ?_⟩, lockless⟩
  rw [procs]
  exact underway.idle q beyond

theorem Underway.nearer (opening : w.Opening) (broker : State machine → ℕ → Choice) (s : State machine)
    (underway : Underway w n s)
    (unfinished : ¬Over s) : ∃ t, machine.Runs (Unhindered broker) s t ∧ Underway w n t ∧
      Machine.left (fun _ => 9) n t < Machine.left (fun _ => 9) n s := by
  obtain ⟨u, ahead, procs, closed, lockless⟩ := underway.closes broker
  simp only [Over, not_forall] at unfinished
  obtain ⟨p, proc, found, running⟩ := unfinished
  rw [← procs] at found lockless
  obtain ⟨q, choice, t, stepped, unhindered⟩ :=
    unblocked opening closed.runs closed.idle lockless found running broker
  obtain ⟨caller, stmt, next, result, w', found', call, executed, rfl⟩ := Machine.step_own stepped
  have below : q < n := by
    by_contra beyond
    cases found'.symm.trans (closed.idle q (Nat.le_of_not_lt beyond))
  have within := (within_of_runs closed.runs found').2
  rw [call] at within
  have positive := within.1
  have less := Machine.left_lt (fun _ => 9) stepped found' below (by omega)
  have same : Machine.left (fun _ => 9) n u = Machine.left (fun _ => 9) n s := Machine.left_congr procs
  refine ⟨_, ahead.tail ⟨_, unhindered, stepped⟩,
    ⟨closed.runs.tail ⟨_, unhindered.inOrder, stepped⟩, fun r beyond => ?_⟩, by omega⟩
  exact Machine.procs_of_step stepped (closed.idle r beyond) fun _ other => by cases other

theorem World.Valid.exec {choice : Choice} {result : stmt.Result} {w' : World} (valid : w.Valid)
    (executed : exec p stmt choice w = some (result, w')) : w'.Valid := by
  cases stmt with
  | now =>
    cases executed
    exact valid
  | insertProcessed eventId eventType processedAt =>
    rcases exec_insertProcessed executed with ⟨_, rfl⟩ | ⟨row, _, free, _, rfl⟩
    · exact valid
    · exact ⟨valid.processed.draft free, valid.projections⟩
  | upsert accountId delta updatedAt =>
    rcases exec_upsert executed with ⟨_, rfl⟩ | ⟨row, _, free, _, rfl⟩
    · exact valid
    · exact ⟨valid.processed, valid.projections.draft free⟩
  | commit =>
    cases executed
    exact ⟨valid.processed.commit, valid.projections.commit⟩
  | rollback =>
    cases executed
    exact ⟨valid.processed.finish, valid.projections.finish⟩
  | commitOffset topic partition offset =>
    cases choice <;> cases executed <;> exact ⟨valid.processed, valid.projections⟩

theorem valid_of_runs (opening : w.Opening) (runs : machine.Runs ok (machine.initial w) s) : World.Valid s.world := by
  induction runs with
  | refl => exact opening.valid
  | tail _ stepped ih =>
    obtain ⟨a, _, stepped⟩ := stepped
    rcases Machine.step_cases stepped with ⟨p, request, rfl, fresh, rfl⟩ |
      ⟨p, choice, proc, stmt, next, result, w', rfl, found, rest, executed, rfl⟩ |
      ⟨p, proc, rfl, _, _, rfl⟩ | ⟨p, proc, rfl, _, _, rfl⟩ | ⟨e, w', rfl, ticked, rfl⟩
    · exact ih
    · exact ih.exec executed
    · exact ih
    · exact ⟨ih.processed.finish, ih.projections.finish⟩
    · cases ticked
      exact ⟨ih.processed, ih.projections⟩

theorem quiets (opening : w.Opening) (runs : machine.Runs InOrder (machine.initial w) s)
    (broker : State machine → ℕ → Choice) :
    ∃ t, machine.Runs (Unhindered broker) s t ∧ World.Opening t.world ∧ Over t ∧ ∃ n, ∀ q, n ≤ q →
    t.procs q = none := by
  obtain ⟨n, idle⟩ := Machine.Runs.finite runs
  have underway : Underway w n s := ⟨runs, idle⟩
  obtain ⟨u, later, ended, finished⟩ :=
    Machine.completes (Machine.left (fun _ => 9) n) (Underway.nearer opening broker) s underway
  obtain ⟨t, ahead, procs, closed, lockless⟩ := ended.closes broker
  obtain ⟨trace, traces⟩ := closed.runs.traces
  have all : ∀ q, Lockless q t.world := by
    intro q
    cases started : t.procs q with
    | none => exact lockless_of_idle opening traces started
    | some proc =>
      have below : q < n := by
        by_contra beyond
        cases started.symm.trans (closed.idle q (Nat.le_of_not_lt beyond))
      rw [procs] at started
      exact lockless q below proc started (finished q proc started)
  have valid := valid_of_runs opening closed.runs
  have processed := valid.processed.opening fun eventId => Option.eq_none_iff_forall_ne_some.2 fun q =>
      (all q).processed eventId
  have projections := valid.projections.opening fun x => Option.eq_none_iff_forall_ne_some.2 fun q =>
      (all q).projections x
  exact ⟨t, later.trans ahead, ⟨processed, projections⟩, fun p proc found =>
    finished p proc (procs ▸ found), n, closed.idle⟩

/-- As long as the transfers in progress form no cycle, all calls can be brought to their end from wherever
they are, and none has then executed more than nine statements. -/
theorem calls_complete (opening : w.Opening) (runs : machine.Runs InOrder (machine.initial w) s)
    (broker : State machine → ℕ → Choice) :
    ∃ t, machine.Runs (Unhindered broker) s t ∧ ∀ p proc, s.procs p = some proc → ∃ after,
    t.procs p = some after ∧
      after.rest.Finished ∧ after.past.length ≤ 9 := by
  obtain ⟨n, idle⟩ := Machine.Runs.finite runs
  have underway : Underway w n s := ⟨runs, idle⟩
  obtain ⟨t, later, ended, finished⟩ :=
    Machine.completes (Machine.left (fun _ => 9) n) (Underway.nearer opening broker) s underway
  refine ⟨t, later, fun p proc found => ?_⟩
  obtain ⟨after, found', _⟩ := Machine.Runs.request later found
  exact ⟨after, found', finished p after found', (within_of_runs ended.runs found').1⟩

/-- Two transfers between the same accounts come to their end, though one of them waits
for the other and the broker is down. -/
theorem calls_complete_sample : ∃ s t : State machine, WaitsFor s 1 0 ∧
    machine.Runs (Unhindered fun _ _ => .kafkaDown "broker down") s t ∧
    ∀ p proc, s.procs p = some proc → ∃ after, t.procs p = some after ∧ after.rest.Finished ∧
    after.past.length ≤ 9 := by
  have executed : (machine.run (fun _ _ => true) (machine.initial emptyTables)
      (transfer 0 5 1 2 :: transfer 1 6 1 2 :: steps [0, 0, 0, 0, 1, 1, 1])).map (holdsUp 0 1) = some true := by
    decide +kernel
  obtain ⟨s, reached, held⟩ := Option.map_eq_some_iff.1 executed
  have up : ∀ p eventId (s : State machine), Ascending s (transfer p eventId 1 2) := by
    intro p eventId s q message source destination same transfers
    cases same
    obtain ⟨rfl, rfl⟩ := transfers_transferMessage transfers
    decide
  have runs : machine.Runs Ascending (machine.initial emptyTables) s := by
    apply Machine.Runs.of_actions _ reached
    simp only [List.forall_mem_cons]
    refine ⟨up 0 5, up 1 6, fun a member s p message source destination same => ?_⟩
    obtain ⟨q, _, rfl⟩ := List.mem_map.1 member
    cases same
  obtain ⟨t, later, ended⟩ := calls_complete emptyTables_opening (inOrder_of_ascending runs).1 fun _ _ =>
    .kafkaDown "broker down"
  exact ⟨s, t, waitsFor_of_holdsUp held, later, ended⟩

end LedgerFlow.Consumers
