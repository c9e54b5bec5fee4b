import LedgerFlow.Concurrency.Diary
import LedgerFlow.Concurrency.Liveness
import LedgerFlow.Outbox.Deadlock

/-! The batches come to their end: none executes more than `7 * batch_size + 6` statements, and all can be brought to
their end from wherever they are, whatever the broker answers. -/

namespace LedgerFlow.Outbox
open Concurrency

def Few : (stmt : Stmt) → stmt.Result → Prop
  | .selectPending _ limit, rows => rows.length ≤ limit
  | .selectStale _ limit, rows => rows.length ≤ limit
  | _, _ => True

/-- Where the selections return few rows, the program executes this many statements at most. -/
abbrev Brief {α : Type} (prog : Code α) (n : ℕ) : Prop := prog.Within (L := language) Few n

namespace Brief
variable {α β : Type} {n : ℕ}

theorem checked {result : Except PyError α} {next : α → Code β} (rest : ∀ value, Brief (next value) n) :
    Brief (Outbox.checked result >>= next) n := by
  cases result with
  | error error => trivial
  | ok value => exact rest value

theorem flush {loaded edited : OutboxEvent} {next : Unit → Code α} (rest : Brief (next ()) n) :
    Brief (Outbox.flush loaded edited >>= next) (n + 1) := by
  unfold Outbox.flush
  split_ifs
  · exact rest.mono (Nat.le_succ n)
  · apply Prog.Within.call
    intro result _
    exact checked fun _ => rest

theorem flushAll {edit : OutboxEvent → OutboxEvent} {rows : List OutboxEvent} {next : Unit → Code α}
    (rest : Brief (next ()) n) : Brief (Outbox.flushAll edit rows >>= next) (n + rows.length) := by
  induction rows with
  | nil => exact rest
  | cons row rows ih =>
    unfold Outbox.flushAll
    rw [Prog.bind_assoc]
    exact flush ih

theorem edits {edit : OutboxEvent → OutboxEvent} {rows : List OutboxEvent} {value : β} {next : β → Code α}
    (rest : Brief (next value) n) :
    Brief ((Outbox.flushAll edit rows >>= fun _ => Outbox.commit >>= fun _ => .ret value) >>= next)
    (n + 1 + rows.length) := by
  rw [Prog.bind_assoc]
  apply flushAll
  exact .call fun _ _ => rest

theorem recoverStaleEvents {limit : ℕ} {next : ℕ → Code α} (rest : ∀ recovered, Brief (next recovered) n) :
    Brief (Outbox.recoverStaleEvents limit >>= next) (n + limit + 3) := by
  apply Prog.Within.call
  intro now _
  apply Prog.Within.call
  intro rows few
  have few : List.length rows ≤ limit := few
  have transaction : Brief ((Outbox.flushAll (·.recovered) rows >>= _) >>= next) _ := edits (rest (List.length rows))
  exact transaction.mono (by omega)

theorem claimPendingEvents {limit : ℕ} {next : List OutboxEvent → Code α}
    (rest : ∀ rows : List OutboxEvent, rows.length ≤ limit → Brief (next rows) n) :
    Brief (Outbox.claimPendingEvents limit >>= next) (n + limit + 3) := by
  apply Prog.Within.call
  intro now _
  apply Prog.Within.call
  intro rows few
  have few : List.length rows ≤ limit := few
  have claimed : (List.map (OutboxEvent.claimed now) rows).length ≤ limit := (List.length_map _).trans_le few
  have transaction : Brief ((Outbox.flushAll (·.claimed now) rows >>= _) >>= next) _ := edits (rest _ claimed)
  exact transaction.mono (by omega)

theorem markPublished {loaded : OutboxEvent} {next : OutboxEvent → Code α}
    (rest : ∀ edited, Brief (next edited) n) : Brief (Outbox.markPublished loaded >>= next) (n + 1) :=
  .call fun _ _ => rest _

theorem markFailed {loaded : OutboxEvent} {error : String} {next : OutboxEvent → Code α}
    (rest : ∀ edited, Brief (next edited) n) : Brief (Outbox.markFailed loaded error >>= next) (n + 1) := by
  unfold Outbox.markFailed
  split_ifs
  · exact (rest _).mono (Nat.le_succ n)
  · exact .call fun _ _ => rest _

theorem markEvent {eventId : UUID} {mark : OutboxEvent → Code OutboxEvent} {next : Unit → Code α}
    (marks : ∀ loaded (next : OutboxEvent → Code α), (∀ edited, Brief (next edited) (n + 2)) →
      Brief (mark loaded >>= next) (n + 3)) (rest : Brief (next ()) n) :
    Brief (Outbox.markEvent eventId mark >>= next) (n + 4) := by
  apply Prog.Within.call
  intro result _
  cases result with
  | none => exact rest.mono (by omega)
  | some loaded =>
    change Brief ((mark loaded >>= fun edited => Outbox.flush loaded edited >>= fun _ => Outbox.commit)
      >>= next) (n + 3)
    rw [Prog.bind_assoc]
    apply marks
    intro edited
    rw [Prog.bind_assoc]
    apply flush
    exact .call fun _ _ => rest

theorem publish {event : OutboxEvent} {next : ℕ → Code α} (rest : ∀ sent, Brief (next sent) n) :
    Brief (Outbox.publish event >>= next) (n + 5) := by
  apply Prog.Within.call
  intro sent _
  cases sent with
  | error error =>
    change Brief ((Outbox.markEvent event.eventId (Outbox.markFailed · error) >>= fun _ => .ret 0) >>= next) (n + 4)
    rw [Prog.bind_assoc]
    exact markEvent (fun _ _ rest => markFailed rest) (rest 0)
  | ok =>
    change Brief ((Outbox.markEvent event.eventId Outbox.markPublished >>= fun _ => .ret 1) >>= next) (n + 4)
    rw [Prog.bind_assoc]
    exact markEvent (fun _ _ rest => markPublished rest) (rest 1)

theorem publishAll {events : List OutboxEvent} : ∀ {next : ℕ → Code α}, (∀ sent, Brief (next sent) n) →
    Brief (Outbox.publishAll events >>= next) (n + 5 * events.length) := by
  induction events with
  | nil =>
    intro next rest
    exact rest 0
  | cons event events ih =>
    intro next rest
    have turns : Brief (Outbox.publish event >>= fun sent => Outbox.publishAll events >>= fun processed =>
        next (sent + processed)) (n + 5 * events.length + 5) :=
      publish fun sent => ih fun processed => rest (sent + processed)
    have size : n + 5 * events.length + 5 = n + 5 * (event :: events).length := by
      rw [List.length_cons]
      omega
    rw [← size]
    simpa only [Outbox.publishAll, Prog.bind_assoc, Prog.ret_bind] using turns

theorem processBatch (batchSize : ℕ) : Brief (Outbox.processBatch batchSize) (7 * batchSize + 6) := by
  have publishes : ∀ rows : List OutboxEvent, rows.length ≤ batchSize →
      Brief (Outbox.publishAll rows) (5 * batchSize) := by
    intro rows few
    have turns : Brief (Outbox.publishAll rows >>= fun sent => .ret sent) (0 + 5 * rows.length) :=
      publishAll fun _ => trivial
    rw [Prog.bind_ret] at turns
    exact turns.mono (by omega)
  have claims : Brief (Outbox.claimPendingEvents batchSize >>= Outbox.publishAll) (5 * batchSize + batchSize + 3) :=
    claimPendingEvents publishes
  exact (recoverStaleEvents fun _ => claims).mono (by omega)

end Brief

variable {w : World} {ok : State machine → Action machine → Prop} {s : State machine} {p n : ℕ}
  {broker : State machine → ℕ → Choice}

theorem few_of_exec {stmt : Stmt} {choice : Choice} {result : stmt.Result} {w' : World}
    (executed : exec p stmt choice w = some (result, w')) : Few stmt result := by
  cases stmt with
  | selectPending | selectStale =>
    cases choice with
    | order eventIds =>
      simp only [exec, World.selectForUpdate] at executed
      split_ifs at executed
      cases executed
      exact (List.length_filterMap_le ..).trans (List.length_take_le ..)
    | _ => cases executed
  | _ => trivial

def allowance (batchSize : ℕ) : ℕ := 7 * batchSize + 6

theorem within_of_runs (runs : machine.Runs ok (machine.initial w) s) {proc : Proc machine}
    (found : s.procs p = some proc) : Machine.Bounded Few allowance proc := by
  apply Machine.Runs.within (fun batchSize => Brief.processBatch batchSize) _ runs p proc found
  intro s p proc choice stmt next result w' _ _ _ executed
  exact few_of_exec executed

/-- The workers execute their statements and end: none starts, none is cut off, and no time passes. The broker
answers each send as `broker` says. -/
def Unhindered (broker : State machine → ℕ → Choice) (s : State machine) (a : Action machine) : Prop :=
  (∃ p choice, a = .step p choice ∧ ∀ proc topic document, s.procs p = some proc →
    proc.rest.head = some (.send topic document) → choice = broker s p) ∨ ∃ p, a = .close p

def Lockless (q : ℕ) (w : World) : Prop := ∀ eventId, w.events.locks eventId ≠ some q

theorem selects (p : ℕ) (Matches : OutboxEvent → Prop) [DecidablePred Matches]
    (key : OutboxEvent → Timestamp) (limit : ℕ)
    (w : World) : ∃ eventIds rows w', w.selectForUpdate p Matches key limit eventIds = some (rows, w') := by
  let found := w.events.rows.keys.filter fun eventId =>
    w.events.Free p eventId ∧ ∃ row ∈ w.events.visible p eventId, Matches row
  let rank (eventId : UUID) : Timestamp := (w.events.visible p eventId).elim 0 key
  refine ⟨found.insertionSort (rank · ≤ rank ·), _, _, if_pos ⟨List.perm_insertionSort _ found, ?_⟩⟩
  apply List.Pairwise.filterMap (S := (key · ≤ key ·)) _ _ (List.pairwise_insertionSort _ found)
  intro eventId eventId' below row seen row' seen'
  simpa only [rank, seen, seen', Option.elim_some] using below

theorem enabled_or_waits (answer : Choice) (p : ℕ) (stmt : Stmt) (w : World) :
    (∃ choice result w', exec p stmt choice w = some (result, w') ∧ ∀ topic document,
      stmt = .send topic document → choice = answer) ∨
    ∃ loaded edited q, stmt = .update loaded edited ∧ q ≠ p ∧ w.events.locks loaded.eventId = some q := by
  cases stmt with
  | now | get | commit => exact .inl ⟨.proceed, _, _, rfl, fun _ _ other => by cases other⟩
  | selectPending now limit =>
    obtain ⟨eventIds, rows, w', selected⟩ := selects p (Due now) (·.createdAt) limit w
    exact .inl ⟨.order eventIds, rows, w', selected, fun _ _ other => by cases other⟩
  | selectStale staleBefore limit =>
    obtain ⟨eventIds, rows, w', selected⟩ :=
      selects p (Stale staleBefore) (fun event => event.claimedAt.getD 0) limit w
    exact .inl ⟨.order eventIds, rows, w', selected, fun _ _ other => by cases other⟩
  | update loaded edited =>
    by_cases free : w.events.Free p loaded.eventId
    · refine .inl ?_
      cases seen : w.events.visible p loaded.eventId with
      | none =>
        exact ⟨.proceed, .error .failure,
        w, by simp only [exec, if_pos free, seen], fun _ _ other => by cases other⟩
      | some row =>
        have executed : exec p (.update loaded edited) .proceed w =
            some (.ok (), { w with events := w.events.draft p loaded.eventId (row.merge loaded edited) }) := by
          simp only [exec, if_pos free, seen]
        exact ⟨_, _, _, executed, fun _ _ other => by cases other⟩
    · simp only [Store.Free, not_forall] at free
      obtain ⟨q, locked, other⟩ := free
      exact .inr ⟨loaded, edited, q, rfl, other, locked⟩
  | send topic document =>
    refine .inl ⟨answer, ?_⟩
    cases answer with
    | sendFails error delivered => exact ⟨_, _, rfl, fun _ _ _ => rfl⟩
    | _ => exact ⟨_, _, rfl, fun _ _ _ => rfl⟩

theorem lockless_of_idle {trace : List (Executed language)} (opening : w.Opening)
    (traces : machine.Traces ok (machine.initial w) trace s) (idle : s.procs p = none) : Lockless p s.world := by
  have holds := holds_of_traces (p := p) opening traces fun proc found => by cases idle.symm.trans found
  rw [Protocol.phase_of_idle traces idle] at holds
  exact fun eventId mine => List.not_mem_nil ((holds eventId).1 mine)

structure Underway (w : World) (n : ℕ) (s : State machine) : Prop where
  runs : machine.Runs machine.anything (machine.initial w) s
  idle : ∀ q, n ≤ q → s.procs q = none

def Over (s : State machine) : Prop := ∀ p proc, s.procs p = some proc → proc.rest.Finished

/-- Where the sessions of finished batches are closed, a batch in progress can execute a statement. -/
theorem unblocked (opening : w.Opening) (underway : Underway w n s)
    (lockless : ∀ q < n, ∀ proc, s.procs q = some proc → proc.rest.Finished → Lockless q s.world)
    {proc : Proc machine}
    (found : s.procs p = some proc) (running : ¬proc.rest.Finished) (broker : State machine → ℕ → Choice) :
    ∃ q choice t, machine.step s (.step q choice) = some t ∧ Unhindered broker s (.step q choice) := by
  obtain ⟨trace, traces⟩ := underway.runs.traces
  have moves : ∀ {q caller choice stmt next result w'}, s.procs q = some caller →
      caller.rest = .call stmt next → exec q stmt choice s.world = some (result, w') →
      (∀ topic document, stmt = .send topic document → choice = broker s q) →
      ∃ q choice t, machine.step s (.step q choice) = some t ∧ Unhindered broker s (.step q choice) := by
    intro q caller choice stmt next result w' found call executed answers
    refine ⟨q, choice, _, Machine.step_eq found call executed,
      .inl ⟨q, choice, rfl, fun other topic document found' head => ?_⟩⟩
    cases found.symm.trans found'
    rw [call] at head
    exact answers topic document (Option.some.inj head)
  cases rest : proc.rest with
  | ret value =>
    rw [rest] at running
    exact absurd trivial running
  | raise error =>
    rw [rest] at running
    exact absurd trivial running
  | call stmt next =>
    rcases enabled_or_waits (broker s p) p stmt s.world with ⟨choice, result, w', executed, answers⟩ |
      ⟨loaded, edited, q, rfl, other, holder⟩
    · exact moves found rest executed answers
    · -- the holder of the row waits for nobody
      cases started : s.procs q with
      | none => exact absurd holder (lockless_of_idle opening traces started _)
      | some caller =>
        have below : q < n := by
          by_contra beyond
          cases started.symm.trans (underway.idle q (Nat.le_of_not_lt beyond))
        cases call : caller.rest with
        | ret value => exact absurd holder (lockless q below caller started (by rw [call]; trivial) _)
        | raise error => exact absurd holder (lockless q below caller started (by rw [call]; trivial) _)
        | call stmt' next' =>
          rcases enabled_or_waits (broker s q) q stmt' s.world with ⟨choice, result, w', executed, answers⟩ |
            ⟨loaded', edited', r, rfl, other', holder'⟩
          · exact moves started call executed answers
          · have waits : WaitsFor s q r := ⟨other', caller, loaded', edited',
              started, by rw [call]; rfl, holder'⟩
            exact absurd holder (lockless_of_waits opening traces waits _)

theorem Underway.nearer (opening : w.Opening) (broker : State machine → ℕ → Choice) (s : State machine)
    (underway : Underway w n s)
    (unfinished : ¬Over s) : ∃ t, machine.Runs (Unhindered broker) s t ∧ Underway w n t ∧
      Machine.left allowance n t < Machine.left allowance n s := by
  obtain ⟨u, closing, procs, _, lockless⟩ :=
    Machine.closes (M := machine) (fun _ => True) Lockless (fun _ _ _ => trivial)
    (fun p w eventId mine => (Store.locks_finish_iff.1 mine).2 rfl)
    (fun p q w free eventId mine => free eventId (Store.locks_finish_iff.1 mine).1) s trivial n
  have closed : Underway w n u := by
    refine ⟨underway.runs.trans (Machine.Runs.mono (fun _ _ _ => trivial) closing), fun q beyond => ?_⟩
    rw [procs]
    exact underway.idle q beyond
  simp only [Over, not_forall] at unfinished
  obtain ⟨p, proc, found, running⟩ := unfinished
  rw [← procs] at found lockless
  obtain ⟨q, choice, t, stepped, unhindered⟩ := unblocked opening closed lockless found running broker
  obtain ⟨caller, stmt, next, result, w', found', call, executed, rfl⟩ := Machine.step_own stepped
  have below : q < n := by
    by_contra beyond
    cases found'.symm.trans (closed.idle q (Nat.le_of_not_lt beyond))
  have within := (within_of_runs closed.runs found').2
  rw [call] at within
  have positive := within.1
  have less := Machine.left_lt allowance stepped found' below (by omega)
  have same : Machine.left allowance n u = Machine.left allowance n s := Machine.left_congr procs
  have ahead : machine.Runs (Unhindered broker) s u := Machine.Runs.mono (fun _ _ closes => .inr closes) closing
  refine ⟨_, ahead.tail ⟨_, unhindered, stepped⟩, ⟨closed.runs.tail ⟨_, trivial, stepped⟩, ?_⟩, ?_⟩
  · intro r beyond
    exact Machine.procs_of_step stepped (closed.idle r beyond) fun _ other => by cases other
  · omega

theorem quiets (opening : w.Opening) (runs : machine.Runs machine.anything (machine.initial w) s)
    (broker : State machine → ℕ → Choice) :
    ∃ t, machine.Runs (Unhindered broker) s t ∧ World.Opening t.world ∧ ∃ n, ∀ q, n ≤ q →
    t.procs q = none := by
  obtain ⟨n, idle⟩ := Machine.Runs.finite runs
  have underway : Underway w n s := ⟨runs, idle⟩
  obtain ⟨u, later, ended, finished⟩ :=
    Machine.completes (Machine.left allowance n) (Underway.nearer opening broker) s underway
  obtain ⟨t, closing, procs, _, lockless⟩ :=
    Machine.closes (M := machine) (fun _ => True) Lockless (fun _ _ _ => trivial)
    (fun p w eventId mine => (Store.locks_finish_iff.1 mine).2 rfl)
    (fun p q w free eventId mine => free eventId (Store.locks_finish_iff.1 mine).1) u trivial n
  have ahead : machine.Runs (Unhindered broker) u t := Machine.Runs.mono (fun _ _ closes => .inr closes) closing
  have reached : machine.Runs machine.anything (machine.initial w) t :=
    ended.runs.trans (Machine.Runs.mono (fun _ _ _ => trivial) closing)
  have idle' : ∀ q, n ≤ q → t.procs q = none := by
    intro q beyond
    rw [procs]
    exact ended.idle q beyond
  obtain ⟨trace, traces⟩ := reached.traces
  have unlocked : ∀ eventId, (World.events t.world).locks eventId = none := by
    intro eventId
    cases held : (World.events t.world).locks eventId with
    | none => rfl
    | some q =>
      cases started : t.procs q with
      | none => exact absurd held (lockless_of_idle opening traces started eventId)
      | some proc =>
        have below : q < n := by
          by_contra beyond
          cases started.symm.trans (idle' q (Nat.le_of_not_lt beyond))
        rw [procs] at started
        exact absurd held (lockless q below proc started (finished q proc started) eventId)
  have valid := (covers opening reached).inv
  exact ⟨t, later.trans ahead, ⟨valid.store.opening unlocked, valid.keyed⟩, n, idle'⟩

/-- All batches can be brought to their end from wherever they are, and none has then
executed more than its allowance. -/
theorem batches_complete (opening : w.Opening) (runs : machine.Runs machine.anything (machine.initial w) s)
    (idle : ∀ q, n ≤ q → s.procs q = none) (broker : State machine → ℕ → Choice) :
    ∃ t, machine.Runs (Unhindered broker) s t ∧ ∀ p proc, s.procs p = some proc → ∃ after,
    t.procs p = some after ∧
      after.rest.Finished ∧ after.past.length ≤ allowance proc.request := by
  have underway : Underway w n s := ⟨runs, idle⟩
  obtain ⟨t, later, ended, finished⟩ :=
    Machine.completes (Machine.left allowance n) (Underway.nearer opening broker) s underway
  refine ⟨t, later, fun p proc found => ?_⟩
  obtain ⟨after, found', same⟩ := Machine.Runs.request later found
  refine ⟨after, found', finished p after found', ?_⟩
  rw [← same]
  exact (within_of_runs ended.runs found').1

/-- Worker 0 waits for worker 1, and both come to their end, though the broker is down. -/
theorem batches_complete_sample : ∃ s t : State machine, WaitsFor s 0 1 ∧
    machine.Runs (Unhindered fun _ _ => .sendFails "broker down" false) s t ∧
    ∀ p proc, s.procs p = some proc → ∃ after, t.procs p = some after ∧ after.rest.Finished ∧
      after.past.length ≤ allowance proc.request := by
  have executed : (machine.run (fun _ _ => true) (machine.initial outbox) standoff).map (waitsFor 0 1) =
      some true := by
    decide +kernel
  obtain ⟨s, reached, waits⟩ := Option.map_eq_some_iff.1 executed
  have starts : ∀ p request, .start p request ∈ standoff → p < 2 := by
    intro p request member
    simp only [standoff, claim, List.cons_append, List.nil_append, List.mem_cons, reduceCtorEq,
      List.not_mem_nil, false_or, or_false] at member
    rcases member with same | same <;> cases same <;> decide
  have below : machine.Runs machine.anything (machine.initial outbox) s ∧ ∀ q, 2 ≤ q → s.procs q = none :=
    Machine.Runs.of_run_below (fun _ _ _ _ => trivial) starts (fun _ _ => rfl) reached
  obtain ⟨runs, unused⟩ := below
  obtain ⟨t, later, ended⟩ := batches_complete outbox_opening runs unused fun _ _ =>
    .sendFails "broker down" false
  exact ⟨s, t, waitsFor_iff waits, later, ended⟩

end LedgerFlow.Outbox
