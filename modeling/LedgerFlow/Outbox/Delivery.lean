import LedgerFlow.Outbox.Turns

/-! What has been sent of an event when it reaches its end: a PUBLISHED event has been sent, and the sends of a FAILED
one have failed as often as they may. -/

namespace LedgerFlow.Outbox
open Concurrency

def outcome (eventId : UUID) : Executed language → Option Bool
  | ⟨_, .send _ document, result⟩ =>
    if document.item "event_id" = .ok (.str eventId.str) then some (Except.toBool result) else none
  | _ => none

def sends (eventId : UUID) (succeeded : Bool) (trace : List (Executed language)) : ℕ :=
  trace.countP fun e => outcome eventId e = some succeeded

/-- The processes whose send of the event has failed and has not been marked. -/
def debts (eventId : UUID) : List (Executed language) → List ℕ
  | [] => []
  | ⟨p, .commit, _⟩ :: trace => (debts eventId trace).erase p
  | e :: trace => if outcome eventId e = some false then e.process :: debts eventId trace else debts eventId trace

/-- The columns that say what has happened. -/
structure SameContent (row row' : OutboxEvent) : Prop where
  eventId : row'.eventId = row.eventId
  aggregateId : row'.aggregateId = row.aggregateId
  eventType : row'.eventType = row.eventType
  payload : row'.payload = row.payload
  createdAt : row'.createdAt = row.createdAt

def Untried (w : World) : Prop :=
  ∀ eventId row, w.events.rows.lookup eventId = some row → row.status = .pending ∧ row.retryCount = 0

variable {eventId : UUID} {succeeded : Bool} {trace : List (Executed language)} {e : Executed language} {p q : ℕ}

theorem sends_cons : sends eventId succeeded (e :: trace) =
    sends eventId succeeded trace + if outcome eventId e = some succeeded then 1 else 0 := by
  simp [sends, List.countP_cons]

theorem sends_le_cons : sends eventId succeeded trace ≤ sends eventId succeeded (e :: trace) := by
  rw [sends_cons]
  omega

theorem debts_cons_commit {result : language.Result Stmt.commit} :
    debts eventId (⟨p, Stmt.commit, result⟩ :: trace) = (debts eventId trace).erase p := rfl

theorem debts_cons (other : e.stmt ≠ Stmt.commit) : debts eventId (e :: trace) =
    if outcome eventId e = some false then e.process :: debts eventId trace else debts eventId trace := by
  obtain ⟨p, stmt, result⟩ := e
  cases stmt with
  | commit => exact absurd rfl other
  | _ => rfl

theorem debts_cons_le (eventId : UUID) (e : Executed language) (trace : List (Executed language)) :
    (debts eventId (e :: trace)).length + sends eventId false trace ≤
      (debts eventId trace).length + sends eventId false (e :: trace) := by
  by_cases commits : e.stmt = Stmt.commit
  · obtain ⟨p, stmt, result⟩ := e
    cases commits
    have shorter : ((debts eventId trace).erase p).length ≤ (debts eventId trace).length := List.length_erase_le
    have more : sends eventId false trace ≤ sends eventId false (⟨p, Stmt.commit, result⟩ :: trace) :=
      sends_le_cons
    change ((debts eventId trace).erase p).length + _ ≤ _
    omega
  · rw [debts_cons commits, sends_cons]
    split_ifs
    · rw [List.length_cons]
      omega
    · omega

theorem debts_le : (debts eventId trace).length ≤ sends eventId false trace := by
  induction trace with
  | nil => exact Nat.le_refl 0
  | cons e trace ih =>
    have grows := debts_cons_le eventId e trace
    omega

theorem mem_debts_cons (owes : q ∈ debts eventId trace) (other : e.stmt = Stmt.commit → e.process ≠ q) :
    q ∈ debts eventId (e :: trace) := by
  by_cases commits : e.stmt = Stmt.commit
  · obtain ⟨p, stmt, result⟩ := e
    cases commits
    exact (List.mem_erase_of_ne (Ne.symm (other rfl))).2 owes
  · rw [debts_cons commits]
    split_ifs
    · exact List.mem_cons_of_mem _ owes
    · exact owes

/-! What is stored of an event is justified by what has been sent. -/

structure Justified (trace : List (Executed language)) (eventId : UUID) (row : OutboxEvent) : Prop where
  counted : row.retryCount + (debts eventId trace).length ≤ sends eventId false trace
  published : row.status = .published → 0 < sends eventId true trace
  failed : row.status = .failed → maxRetries ≤ sends eventId false trace

variable {row row' loaded edited : OutboxEvent}

theorem Justified.cons (justified : Justified trace eventId row) : Justified (e :: trace) eventId row := by
  have grows := debts_cons_le eventId e trace
  have counted := justified.counted
  refine ⟨by omega, fun published => ?_, fun failed => ?_⟩
  · exact Nat.lt_of_lt_of_le (justified.published published) sends_le_cons
  · exact Nat.le_trans (justified.failed failed) sends_le_cons

theorem Justified.untried (pending : row.status = .pending) (fresh : row.retryCount = 0) :
    Justified trace eventId row := by
  refine ⟨?_, fun absurd => ?_, fun absurd => ?_⟩
  · rw [fresh, Nat.zero_add]
    exact debts_le
  · cases pending.symm.trans absurd
  · cases pending.symm.trans absurd

theorem Justified.recovered (justified : Justified trace eventId row) : Justified trace eventId row.recovered :=
  ⟨justified.counted, nofun, nofun⟩

theorem Justified.claimed (justified : Justified trace eventId row) (now : Timestamp) :
    Justified trace eventId (row.claimed now) :=
  ⟨justified.counted, nofun, nofun⟩

theorem Justified.marked_published (justified : Justified trace eventId row) (sent : 0 < sends eventId true trace)
    (now : Timestamp) : Justified trace eventId (row.merge loaded (loaded.published now)) := by
  have count : (row.merge loaded (loaded.published now)).retryCount = row.retryCount := by
    simp [OutboxEvent.merge, OutboxEvent.published, OutboxEvent.column]
  refine ⟨count ▸ justified.counted, fun _ => sent, fun failed => ?_⟩
  simp only [OutboxEvent.merge, OutboxEvent.column] at failed
  split_ifs at failed
  · exact justified.failed failed
  · cases failed

/-- The mark of a send that has failed: it may count less than has failed, never more. -/
theorem Justified.marked_failed (justified : Justified trace eventId row) (fails : Fails loaded edited)
    (counted : loaded.retryCount + 1 + (debts eventId trace).length ≤ sends eventId false trace) :
    Justified trace eventId (row.merge loaded edited) := by
  have next : edited.retryCount = loaded.retryCount + 1 := by cases fails <;> rfl
  have count : (row.merge loaded edited).retryCount = loaded.retryCount + 1 := by
    simp [OutboxEvent.merge, OutboxEvent.column, next]
  refine ⟨count ▸ counted, fun published => ?_, fun failed => ?_⟩
  · simp only [OutboxEvent.merge, OutboxEvent.column] at published
    split_ifs at published
    · exact justified.published published
    · cases fails <;> cases published
  · simp only [OutboxEvent.merge, OutboxEvent.column] at failed
    split_ifs at failed
    · exact justified.failed failed
    · cases fails with
      | gaveUp error exhausted => omega
      | retried error now left => cases failed

/-! The steps of a call. -/

variable {φ : Turn} {stmt : Stmt} {result : stmt.Result}

theorem outcome_send {topic : String} {answer : Except String Unit} (named : row.eventId = eventId) :
    outcome eventId ⟨p, Stmt.send topic (message row), answer⟩ = some (Except.toBool answer) := by
  simp [outcome, named]

theorem sent_after (allows : φ.Allows stmt) (sent : (φ.after stmt result).sent = some (eventId, succeeded)) :
    φ.sent = some (eventId, succeeded) ∧ stmt ≠ .commit ∨ stmt ≠ .commit ∧
    outcome eventId ⟨p, stmt, result⟩ = some succeeded := by
  cases stmt with
  | now | selectPending | selectStale | update => exact .inl ⟨sent, nofun⟩
  | get id =>
    cases result with
    | none => cases sent
    | some loaded => exact .inl ⟨sent, nofun⟩
  | commit => cases sent
  | send topic document =>
    obtain ⟨_, _, _, row, rest, todo, rfl, _⟩ := allows
    refine .inr ⟨nofun, ?_⟩
    have head : ∀ outcome, (φ.send outcome).sent = some (row.eventId, outcome) := by
      intro outcome
      simp only [Turn.send, todo, List.head?_cons, Option.map_some]
    cases result with
    | ok =>
      obtain ⟨named, rfl⟩ := Prod.mk.inj (Option.some.inj ((head true).symm.trans sent))
      exact outcome_send named
    | error error =>
      obtain ⟨named, rfl⟩ := Prod.mk.inj (Option.some.inj ((head false).symm.trans sent))
      exact outcome_send named

/-! Whole runs. -/

variable {w : World} {s t : State machine} {ok : State machine → Action machine → Prop} {proc : Proc machine}

/-- The sends account for what the calls have in hand and for what is stored. -/
structure Accounted (trace : List (Executed language)) (s : State machine) : Prop where
  succeeded : ∀ p eventId, (turns.phase p trace).sent = some (eventId, true) → 0 < sends eventId true trace
  failing : ∀ p eventId, (turns.phase p trace).sent = some (eventId, false) → p ∈ debts eventId trace
  loaded : ∀ p row, (turns.phase p trace).loaded = some row →
    row.retryCount + (debts row.eventId trace).length ≤ sends row.eventId false trace
  rows : ∀ eventId row, (World.events s.world).rows.lookup eventId = some row → Justified trace eventId row

theorem accounted_start (untried : Untried w) : Accounted [] (machine.initial w) := by
  refine ⟨fun p eventId sent => ?_, fun p eventId sent => ?_, fun p row loaded => ?_,
    fun eventId row stored => ?_⟩
  · cases (rfl : (turns.phase p []).sent = none).symm.trans sent
  · cases (rfl : (turns.phase p []).sent = none).symm.trans sent
  · cases (rfl : (turns.phase p []).loaded = none).symm.trans loaded
  · obtain ⟨pending, fresh⟩ := untried eventId row stored
    exact .untried pending fresh

theorem Accounted.frame (accounted : Accounted trace s) (rows : ∀ eventId row,
    (World.events t.world).rows.lookup eventId = some row →
      (World.events s.world).rows.lookup eventId = some row ∨ row.status = .pending ∧ row.retryCount = 0) :
    Accounted trace t := by
  refine ⟨accounted.succeeded, accounted.failing, accounted.loaded, fun eventId row stored => ?_⟩
  rcases rows eventId row stored with before | ⟨pending, fresh⟩
  · exact accounted.rows eventId row before
  · exact .untried pending fresh

theorem post_rows {e : Tick} {w' : World} (ticked : World.tick e w = some w') (eventId : UUID) (row : OutboxEvent)
    (stored : w'.events.rows.lookup eventId = some row) :
    w.events.rows.lookup eventId = some row ∨ row.status = .pending ∧ row.retryCount = 0 := by
  cases e with
  | elapse microseconds =>
    cases ticked
    exact .inl stored
  | post id aggregateId eventType payload createdAt =>
    simp only [World.tick] at ticked
    split_ifs at ticked
    cases ticked
    rcases Store.lookup_insert_cases stored with ⟨rfl, rfl⟩ | ⟨_, earlier⟩
    · exact .inr ⟨rfl, rfl⟩
    · exact .inl earlier

theorem Accounted.moves (opening : w.Opening) (run : machine.Traces ok (machine.initial w) trace s)
    (accounted : Accounted trace s) (found : s.procs p = some proc) {clock : Timestamp}
    {done : language.Result Stmt.commit} (moves : Moves proc.past clock row row')
    (keyed : row.eventId = eventId) (justified : Justified trace eventId row) :
    Justified (⟨p, Stmt.commit, done⟩ :: trace) eventId row' := by
  have after : Justified (⟨p, Stmt.commit, done⟩ :: trace) eventId row := justified.cons
  cases moves with
  | recovers now claimed => exact after.recovered
  | claims now due => exact after.claimed now
  | marks loaded edited w₁ earlier latest same marks =>
    obtain ⟨outcome, sent, row, marked⟩ := marked_of_traces opening run found latest marks
    rw [same, keyed] at sent
    cases outcome with
    | true =>
      obtain ⟨now, rfl⟩ := marked
      exact after.marked_published (Nat.lt_of_lt_of_le (accounted.succeeded p eventId sent) sends_le_cons) now
    | false =>
      -- the failure that is marked was among the debts
      have owes := accounted.failing p eventId sent
      have counted := accounted.loaded p loaded row
      rw [same, keyed] at counted
      have paid := List.length_erase_of_mem owes
      have owed := List.length_pos_of_mem owes
      have grows : sends eventId false trace ≤ sends eventId false (⟨p, Stmt.commit, done⟩ :: trace) :=
        sends_le_cons
      apply after.marked_failed marked
      rw [debts_cons_commit]
      omega

theorem Accounted.loads (opening : w.Opening) (run : machine.Traces ok (machine.initial w) trace s)
    (accounted : Accounted trace s) (found : s.procs p = some proc) {next : stmt.Result → Code ℕ}
    (rest : proc.rest = .call stmt next) {choice : Choice} {w' : World}
    (executed : exec p stmt choice s.world = some (result, w'))
    (loaded : ((turns.phase p trace).after stmt result).loaded = some row) :
    row.retryCount + (debts row.eventId trace).length ≤ sends row.eventId false trace := by
  cases stmt with
  | now | selectPending | selectStale | update => exact accounted.loaded p row loaded
  | commit => cases loaded
  | send topic document =>
    cases result <;> exact accounted.loaded p row loaded
  | get eventId =>
    have stored := (loads_of_traces opening run found rest executed).1
    cases result with
    | none => exact accounted.loaded p row loaded
    | some loaded' =>
      cases loaded
      have keyed := (covers opening run.runs).inv.keyed eventId row stored.symm
      exact keyed ▸ (accounted.rows eventId row stored.symm).counted

theorem Accounted.step (opening : w.Opening) (run : machine.Traces ok (machine.initial w) trace s)
    (accounted : Accounted trace s) (found : s.procs p = some proc) {next : stmt.Result → Code ℕ}
    (rest : proc.rest = .call stmt next) {choice : Choice} {w' : World}
    (executed : exec p stmt choice s.world = some (result, w')) {procs : ℕ → Option (Proc machine)} :
    Accounted (⟨p, stmt, result⟩ :: trace) ⟨w', procs⟩ := by
  have allows := allows_of_traces run found rest
  have covered := covers opening run.runs
  have guar := (sound.guar_of_step covered found rest executed).1
  have own : turns.phase p (⟨p, stmt, result⟩ :: trace) = (turns.phase p trace).after stmt result := if_pos rfl
  have other : ∀ q, q ≠ p → turns.phase q (⟨p, stmt, result⟩ :: trace) = turns.phase q trace :=
    fun q different => if_neg (Ne.symm different)
  refine ⟨fun q eventId sent => ?_, fun q eventId sent => ?_, fun q row loaded => ?_,
    fun eventId row stored => ?_⟩
  · by_cases mine : q = p
    · subst mine
      rw [own] at sent
      rcases sent_after (p := q) allows sent with ⟨before, _⟩ | ⟨_, new⟩
      · exact Nat.lt_of_lt_of_le (accounted.succeeded q eventId before) sends_le_cons
      · rw [sends_cons, if_pos new]
        omega
    · rw [other q mine] at sent
      exact Nat.lt_of_lt_of_le (accounted.succeeded q eventId sent) sends_le_cons
  · by_cases mine : q = p
    · subst mine
      rw [own] at sent
      rcases sent_after (p := q) allows sent with ⟨before, uncommitted⟩ | ⟨uncommitted, new⟩
      · exact mem_debts_cons (accounted.failing q eventId before) fun commits => absurd commits uncommitted
      · rw [debts_cons uncommitted, if_pos new]
        exact List.mem_cons_self
    · rw [other q mine] at sent
      exact mem_debts_cons (accounted.failing q eventId sent) fun _ => Ne.symm mine
  · have grows := debts_cons_le row.eventId ⟨p, stmt, result⟩ trace
    have counted : row.retryCount + (debts row.eventId trace).length ≤ sends row.eventId false trace := by
      by_cases mine : q = p
      · subst mine
        rw [own] at loaded
        exact accounted.loads opening run found rest executed loaded
      · rw [other q mine] at loaded
        exact accounted.loaded q row loaded
    omega
  · rcases guar.moves eventId with same | ⟨before, after, stored', moved, moves⟩
    · exact (accounted.rows eventId row (same.symm.trans stored)).cons
    · by_cases commits : proc.rest.head = some .commit
      · rw [rest] at commits
        cases commits
        cases moved.symm.trans stored
        exact accounted.moves opening run found moves (covered.inv.keyed eventId before stored')
          (accounted.rows eventId before stored')
      · have quiet := congrArg (AList.lookup eventId) (guar.quiet commits)
        exact (accounted.rows eventId row (quiet.symm.trans stored)).cons

theorem accounted_of_traces (opening : w.Opening) (untried : Untried w)
    (traces : machine.Traces ok (machine.initial w) trace s) : Accounted trace s := by
  induction traces with
  | refl => exact accounted_start untried
  | @tail trace s t a run allowed stepped ih =>
    rcases Machine.step_cases stepped with ⟨p, request, rfl, fresh, rfl⟩ |
      ⟨p, choice, proc, stmt, next, result, w', rfl, found, rest, executed, rfl⟩ |
      ⟨p, proc, rfl, found, running, rfl⟩ | ⟨p, proc, rfl, found, finished, rfl⟩ |
        ⟨e, w', rfl, ticked, rfl⟩
    · exact ih.frame fun _ _ stored => .inl stored
    · rw [Machine.executed_step found rest executed]
      exact ih.step opening run found rest executed
    · exact ih.frame fun _ _ stored => .inl stored
    · exact ih.frame fun _ _ stored => .inl stored
    · exact ih.frame (post_rows ticked)

theorem SameContent.refl (row : OutboxEvent) : SameContent row row := ⟨rfl, rfl, rfl, rfl, rfl⟩

theorem SameContent.trans {row'' : OutboxEvent} (first : SameContent row row') (second : SameContent row' row'') :
    SameContent row row'' where
  eventId := second.eventId.trans first.eventId
  aggregateId := second.aggregateId.trans first.aggregateId
  eventType := second.eventType.trans first.eventType
  payload := second.payload.trans first.payload
  createdAt := second.createdAt.trans first.createdAt

theorem Moves.content {past : List (Stmt × World)} {clock : Timestamp} (moves : Moves past clock row row') :
    SameContent row row' := by
  cases moves <;> exact ⟨rfl, rfl, rfl, rfl, rfl⟩

theorem content_of_runs (opening : w.Opening) (reached : machine.Runs ok (machine.initial w) s)
    (later : machine.Runs ok s t) (stored : (World.events s.world).rows.lookup eventId = some row) :
    ∃ row', (World.events t.world).rows.lookup eventId = some row' ∧ SameContent row row' := by
  induction later with
  | refl => exact ⟨row, stored, .refl row⟩
  | tail later stepped ih =>
    obtain ⟨a, _, stepped⟩ := stepped
    obtain ⟨before, stored', same⟩ := ih
    rcases stored_of_step (covers opening (reached.trans later)) stepped stored' with kept |
      ⟨_, _, _, after, _, _, _, moved, moves⟩
    · exact ⟨before, kept, same⟩
    · exact ⟨after, moved, same.trans moves.content⟩

/-- No event is dropped silently. -/
theorem delivered (opening : w.Opening) (untried : Untried w)
    (traces : machine.Traces machine.anything (machine.initial w) trace s)
    (stored : (World.events s.world).rows.lookup eventId = some row) :
    (row.status = .published → 0 < sends eventId true trace) ∧
      (row.status = .failed → maxRetries ≤ sends eventId false trace) ∧
      ∀ {t}, machine.Runs machine.anything s t →
        ∃ row', (World.events t.world).rows.lookup eventId = some row' ∧ SameContent row row' := by
  have justified := (accounted_of_traces opening untried traces).rows eventId row stored
  exact ⟨justified.published, justified.failed, fun later => content_of_runs opening traces.runs later stored⟩

theorem outbox_untried : Untried outbox := by
  intro eventId row stored
  have member := AList.mem_keys.1 (AList.lookup_isSome.1
      (show (outbox.events.rows.lookup eventId).isSome by rw [stored]; rfl))
  obtain rfl : eventId = 5 := by simpa [outbox] using member
  cases stored
  exact ⟨rfl, rfl⟩

/-- The first send fails and its event is tried again. -/
theorem delivered_sample : ∃ (s : State machine) (trace : List (Executed language)) (row : OutboxEvent),
    (World.events s.world).rows.lookup 5 = some row ∧ row.status = .published ∧ 0 < sends 5 true trace ∧
      ∀ {t}, machine.Runs machine.anything s t →
        ∃ row', (World.events t.world).rows.lookup 5 = some row' ∧ SameContent row row' := by
  have executed : (machine.run (fun _ _ => true) (machine.initial outbox)
      (claim 0 ++ fail 0 ++ [.tick (.elapse 2000000)] ++ claim 1 ++ succeed 1)).map (statusOf 5) =
        some (some .published) := by
    decide +kernel
  obtain ⟨s, reached, observed⟩ := Option.map_eq_some_iff.1 executed
  obtain ⟨row, stored, published⟩ := Option.map_eq_some_iff.1 observed
  have runs : machine.Runs machine.anything (machine.initial outbox) s := .of_run (fun _ _ _ => trivial) reached
  obtain ⟨trace, traces⟩ := Machine.Runs.traces runs
  obtain ⟨sent, _, kept⟩ := delivered outbox_opening outbox_untried traces stored
  exact ⟨s, trace, row, stored, published, sent published, kept⟩

end LedgerFlow.Outbox
