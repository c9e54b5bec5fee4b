import LedgerFlow.Outbox.Turns

/-! The outbox workers cannot deadlock: a session that waits for a row has locked none itself. -/

namespace LedgerFlow.Outbox
open Concurrency

def locked (ids : List UUID) : (stmt : Stmt) → stmt.Result → List UUID
  | .selectPending _ _, rows => List.map OutboxEvent.eventId rows ++ ids
  | .selectStale _ _, rows => List.map OutboxEvent.eventId rows ++ ids
  | .update loaded _, .ok () => loaded.eventId :: ids
  | .commit, _ => []
  | _, _ => ids

/-- A session updates a row that it has locked, or it has locked none. -/
def Grips (ids : List UUID) : Stmt → Prop
  | .update loaded _ => loaded.eventId ∈ ids ∨ ids = []
  | _ => True

def locking : Protocol machine (List UUID) := ⟨[], locked, fun _ => Grips⟩

/-- The edges of the wait-for graph: `p` waits for the row lock of `q`. -/
def WaitsFor (s : State machine) (p q : ℕ) : Prop :=
  q ≠ p ∧ ∃ proc loaded edited, s.procs p = some proc ∧ proc.rest.head = some (.update loaded edited) ∧
    (World.events s.world).locks loaded.eventId = some q

abbrev Locks {α : Type} (ids : List UUID) (code : Code α) (Q : List UUID → Prop) : Prop :=
  ∀ batchSize : ℕ, locking.Follows batchSize (fun ids' _ => Q ids') (fun _ _ => True) ids code

namespace Locks
variable {α β : Type} {ids : List UUID} {Q R : List UUID → Prop}

theorem bind {code : Code α} {f : α → Code β} (first : Locks ids code Q)
    (second : ∀ ids' value, Q ids' → Locks ids' (f value) R) : Locks ids (code >>= f) R :=
  fun batchSize => Protocol.Follows.bind (first batchSize) fun ids' value holds => second ids' value holds batchSize

theorem ret {value : α} (holds : Q ids) : Locks ids (.ret value) Q := fun _ => holds

theorem now : Locks ids Outbox.now (· = ids) := fun _ => ⟨trivial, fun _ _ => rfl⟩

theorem commit : Locks ids Outbox.commit (· = []) := fun _ => ⟨trivial, fun _ _ => rfl⟩

theorem flush {loaded edited : OutboxEvent} (grips : loaded.eventId ∈ ids ∨ ids = []) :
    Locks ids (Outbox.flush loaded edited) fun ids' => ∀ id ∈ ids, id ∈ ids' := by
  intro batchSize
  unfold Outbox.flush
  split_ifs with unchanged
  · exact fun _ member => member
  · refine ⟨grips, fun result _ => ?_⟩
    cases result with
    | ok => exact fun _ member => List.mem_cons_of_mem _ member
    | error error => trivial

theorem flushAll (edit : OutboxEvent → OutboxEvent) {rows : List OutboxEvent}
    (own : ∀ row ∈ rows, row.eventId ∈ ids) : Locks ids (Outbox.flushAll edit rows) fun _ => True := by
  induction rows generalizing ids with
  | nil => exact ret trivial
  | cons row rows ih =>
    apply bind (flush (.inl (own row List.mem_cons_self)))
    intro ids' _ kept
    exact ih fun row' member => kept _ (own row' (List.mem_cons_of_mem _ member))

theorem own_rows (rows : List OutboxEvent) : ∀ row ∈ rows, row.eventId ∈ rows.map OutboxEvent.eventId ++ ids :=
  fun _ member => List.mem_append_left _ (List.mem_map_of_mem member)

theorem recoverStaleEvents (limit : ℕ) : Locks ids (Outbox.recoverStaleEvents limit) (· = []) := by
  apply bind now
  intro _ now same
  rw [same]
  intro batchSize
  refine ⟨trivial, fun rows _ => ?_⟩
  have edited : Locks (List.map OutboxEvent.eventId rows ++ ids) _ _ := flushAll (·.recovered) (own_rows rows)
  apply bind edited _ batchSize
  intro ids' _ _
  apply bind commit
  intro _ _ none
  exact ret none

theorem claimPendingEvents (limit : ℕ) : Locks ids (Outbox.claimPendingEvents limit) (· = []) := by
  apply bind now
  intro _ now same
  rw [same]
  intro batchSize
  refine ⟨trivial, fun rows _ => ?_⟩
  have edited : Locks (List.map OutboxEvent.eventId rows ++ ids) _ _ := flushAll (·.claimed now) (own_rows rows)
  apply bind edited _ batchSize
  intro ids' _ _
  apply bind commit
  intro _ _ none
  exact ret none

theorem markPublished (row : OutboxEvent) : Locks ids (Outbox.markPublished row) (· = ids) :=
  bind now fun _ _ same => ret same

theorem markFailed (row : OutboxEvent) (error : String) : Locks ids (Outbox.markFailed row error) (· = ids) := by
  unfold Outbox.markFailed
  split_ifs
  · exact ret rfl
  · exact bind now fun _ _ same => ret same

theorem markEvent (eventId : UUID) {mark : OutboxEvent → Code OutboxEvent}
    (reads : ∀ row, Locks [] (mark row) (· = [])) : Locks [] (Outbox.markEvent eventId mark) (· = []) := by
  intro batchSize
  refine ⟨trivial, fun result _ => ?_⟩
  cases result with
  | none => exact rfl
  | some row =>
    apply bind (reads row) _ batchSize
    intro ids' edited none
    apply bind (flush (.inr none))
    intro _ _ _
    exact commit

theorem publish (event : OutboxEvent) : Locks [] (Outbox.publish event) (· = []) := by
  intro batchSize
  refine ⟨trivial, fun sent _ => ?_⟩
  cases sent with
  | ok =>
    have marked : Locks [] (Outbox.markEvent event.eventId Outbox.markPublished) (· = []) :=
      markEvent _ markPublished
    exact bind marked (fun _ _ none => ret none) batchSize
  | error error =>
    have marked : Locks [] (Outbox.markEvent event.eventId (Outbox.markFailed · error)) (· = []) :=
      markEvent _ fun row => markFailed row error
    exact bind marked (fun _ _ none => ret none) batchSize

theorem publishAll (events : List OutboxEvent) : Locks [] (Outbox.publishAll events) (· = []) := by
  induction events with
  | nil => exact ret rfl
  | cons event events ih =>
    apply bind (publish event)
    intro _ _ none
    rw [none]
    exact bind ih fun _ _ none => ret none

theorem processBatch (batchSize : ℕ) : Locks [] (Outbox.processBatch batchSize) (· = []) := by
  apply bind (recoverStaleEvents batchSize)
  intro _ _ none
  rw [none]
  apply bind (claimPendingEvents batchSize)
  intro _ events none
  rw [none]
  exact publishAll events

end Locks

variable {w w' : World} {p q : ℕ} {stmt : Stmt} {choice : Choice} {result : stmt.Result}

def Holds (p : ℕ) (ids : List UUID) (w : World) : Prop := ∀ eventId,
    w.events.locks eventId = some p ↔ eventId ∈ ids

theorem Holds.select {ids : List UUID} (valid : w.Valid) (holds : Holds p ids w) {Matches : OutboxEvent → Prop}
    [DecidablePred Matches] {key : OutboxEvent → Timestamp} {limit : ℕ} {eventIds : List UUID}
    {rows : List OutboxEvent}
    (selected : w.selectForUpdate p Matches key limit eventIds = some (rows, w')) :
    Holds p (rows.map OutboxEvent.eventId ++ ids) w' := by
  simp only [World.selectForUpdate] at selected
  split_ifs at selected with answers
  cases selected
  intro eventId
  rw [List.mem_append, ← holds eventId]
  have returned : eventId ∈ ((eventIds.take limit).filterMap fun id => w.events.visible p id).map
      OutboxEvent.eventId ↔ eventId ∈ eventIds.take limit := by
    constructor
    · intro member
      obtain ⟨row, listed, rfl⟩ := List.mem_map.1 member
      obtain ⟨id, chosen, seen⟩ := List.mem_filterMap.1 listed
      rwa [valid.visible seen]
    · intro chosen
      have found := (List.mem_filter.1 (answers.1.mem_iff.1 (List.mem_of_mem_take chosen))).2
      obtain ⟨_, row, seen, _⟩ := of_decide_eq_true found
      exact List.mem_map.2 ⟨row, List.mem_filterMap.2 ⟨eventId, chosen, seen⟩, valid.visible seen⟩
  rw [returned]
  by_cases chosen : eventId ∈ eventIds.take limit
  · simp [Store.lockAll, chosen]
  · simp [Store.lockAll, chosen]

theorem Holds.own {ids : List UUID} (valid : w.Valid) (holds : Holds p ids w)
    (executed : exec p stmt choice w = some (result, w')) : Holds p (locked ids stmt result) w' := by
  cases stmt with
  | now =>
    cases executed
    exact holds
  | get eventId =>
    cases executed
    exact holds
  | selectPending | selectStale =>
    cases choice with
    | order eventIds => exact holds.select valid executed
    | _ => cases executed
  | update loaded edited =>
    obtain ⟨_, ⟨_, failed, same⟩ | ⟨row, _, done, same⟩⟩ := exec_update choice executed
    · rw [failed, same]
      exact holds
    · rw [done, same]
      intro eventId
      change (Store.draft p loaded.eventId _ w.events).locks eventId = some p ↔ eventId ∈ loaded.eventId :: ids
      rw [Store.locks_draft_iff, List.mem_cons, holds eventId]
      tauto
  | commit =>
    cases executed
    intro eventId
    change (Store.finish p _).locks eventId = some p ↔ eventId ∈ []
    rw [Store.locks_finish_iff]
    simp
  | send topic document =>
    have same : w'.events = w.events := (exec_send executed).1
    have kept : locked ids (.send topic document) result = ids := by cases result <;> rfl
    rw [kept]
    intro eventId
    rw [same]
    exact holds eventId

theorem locks_of_exec (executed : exec p stmt choice w = some (result, w')) (other : q ≠ p) (eventId : UUID) :
    w'.events.locks eventId = some q ↔ w.events.locks eventId = some q := by
  cases stmt with
  | now | get =>
    cases executed
    exact Iff.rfl
  | selectPending | selectStale =>
    cases choice with
    | order eventIds =>
      obtain ⟨chosen, free, same, _⟩ := World.selectForUpdate_cases executed
      rw [same]
      by_cases member : eventId ∈ chosen
      · have unlocked := (free eventId member).not_locked other
        simp [Store.lockAll, member, unlocked, other.symm]
      · simp [Store.lockAll, member]
    | _ => cases executed
  | update loaded edited =>
    obtain ⟨free, ⟨_, _, same⟩ | ⟨row, _, _, same⟩⟩ := exec_update choice executed
    · rw [same]
    · rw [same, Store.locks_draft_iff]
      constructor
      · intro after
        rcases after with ⟨_, mine⟩ | ⟨_, before⟩
        · exact absurd mine.symm other
        · exact before
      · intro before
        refine .inr ⟨?_, before⟩
        intro same
        subst same
        exact free.not_locked other before
  | commit =>
    cases executed
    change (Store.finish p _).locks eventId = some q ↔ _
    rw [Store.locks_finish_iff]
    exact and_iff_left other.symm
  | send topic document =>
    rw [(exec_send executed).1]

variable {ok : State machine → Action machine → Prop} {s : State machine} {trace : List (Executed language)}

theorem holds_of_traces (opening : w.Opening) (traces : machine.Traces ok (machine.initial w) trace s)
    (running : Protocol.Open s p) : Holds p (locking.phase p trace) s.world := by
  apply Protocol.knows_of_traces _ _ _ traces running
  · intro p eventId
    rw [opening.store.locks eventId]
    exact ⟨fun absurd => (Option.some_ne_none _ absurd.symm).elim, fun absurd => (List.not_mem_nil absurd).elim⟩
  · intro trace s p proc choice stmt next result w' run _ _ _ executed holds
    exact holds.own (covers opening run.runs).inv executed
  · intro trace s t a q run _ stepped notMine notClosed _ holds eventId
    rw [← holds eventId]
    rcases Machine.step_cases stepped with ⟨p, request, rfl, fresh, rfl⟩ |
      ⟨p, choice, proc, stmt, next, result, w', rfl, found, rest, executed, rfl⟩ |
      ⟨p, proc, rfl, _, _, rfl⟩ | ⟨p, proc, rfl, _, _, rfl⟩ | ⟨e, w', rfl, ticked, rfl⟩
    · exact Iff.rfl
    · exact locks_of_exec executed (fun same => notMine choice (by rw [same])) eventId
    · exact Iff.rfl
    · change (Store.finish p _).locks eventId = some q ↔ _
      rw [Store.locks_finish_iff]
      exact and_iff_left fun same => notClosed (by rw [same])
    · cases e with
      | elapse microseconds =>
        cases ticked
        exact Iff.rfl
      | post id aggregateId eventType payload createdAt =>
        simp only [machine, World.tick] at ticked
        split_ifs at ticked
        cases ticked
        exact Iff.rfl

theorem grips_of_traces (traces : machine.Traces ok (machine.initial w) trace s) {proc : Proc machine}
    (found : s.procs p = some proc) {next : stmt.Result → Code ℕ} (rest : proc.rest = .call stmt next) :
    Grips (locking.phase p trace) stmt := by
  have follows : locking.Follows proc.request (fun ids _ => ids = []) (fun _ _ => True)
      (locking.phase p trace) proc.rest :=
    Protocol.follows_of_traces (Φ := fun _ => True) (Q := fun _ ids _ => ids = []) (fun _ _ _ _ => trivial)
      (fun batchSize _ => Locks.processBatch batchSize batchSize) (fun _ => trivial) traces found
  rw [rest] at follows
  exact follows.1

theorem head_eq {α : Type} {prog : Code α} (head : prog.head = some stmt) : ∃ next, prog = .call stmt next := by
  cases prog with
  | ret value => cases head
  | raise error => cases head
  | call stmt' next =>
    cases head
    exact ⟨next, rfl⟩

theorem lockless_of_waits (opening : w.Opening) (traces : machine.Traces ok (machine.initial w) trace s)
    (waits : WaitsFor s p q) (eventId : UUID) : (World.events s.world).locks eventId ≠ some p := by
  obtain ⟨other, proc, loaded, edited, found, head, holder⟩ := waits
  obtain ⟨next, rest⟩ := head_eq head
  have holds := holds_of_traces opening traces (Protocol.open_of_call found rest)
  intro mine
  rcases grips_of_traces traces found rest with gripped | none
  · have own := (holds loaded.eventId).2 gripped
    exact other (Option.some.inj (holder.symm.trans own))
  · have listed := (holds eventId).1 mine
    rw [none] at listed
    exact List.not_mem_nil listed

/-- No worker waits for one that waits. -/
theorem no_chains (opening : w.Opening) (runs : machine.Runs ok (machine.initial w) s)
    (waits : WaitsFor s p q) (r : ℕ) : ¬WaitsFor s q r := by
  intro waits'
  obtain ⟨trace, traces⟩ := runs.traces
  obtain ⟨_, _, loaded, _, _, _, holder⟩ := waits
  exact lockless_of_waits opening traces waits' loaded.eventId holder

def waitsFor (p q : ℕ) (s : State machine) : Bool :=
  p != q && (s.procs p).any fun proc => match proc.rest.head with
    | some (.update loaded _) => (World.events s.world).locks (OutboxEvent.eventId loaded) == some q
    | _ => false

theorem waitsFor_iff {p q : ℕ} : waitsFor p q s → WaitsFor s p q := by
  intro waits
  unfold waitsFor at waits
  rw [Bool.and_eq_true, bne_iff_ne, Option.any_eq_true] at waits
  obtain ⟨different, proc, found, waiting⟩ := waits
  split at waiting
  · rename_i loaded edited head
    exact ⟨different.symm, proc, loaded, edited, found, head, eq_of_beq waiting⟩
  · cases waiting

/-- Worker 0 has sent the event and is about to mark it when worker 1 takes it for dead. -/
def standoff : List (Action machine) :=
  claim 0 ++ [.step 0 .proceed, .tick (.elapse 31000000), .start 1 (100 : ℕ), .step 1 .proceed,
    .step 1 (.order [5]), .step 0 .proceed, .step 0 .proceed]

theorem no_chains_sample : ∃ s : State machine, WaitsFor s 0 1 ∧ ∀ r, ¬WaitsFor s 1 r := by
  have executed : (machine.run (fun _ _ => true) (machine.initial outbox) standoff).map (waitsFor 0 1) =
      some true := by
    decide +kernel
  obtain ⟨s, runs, waits⟩ := Machine.Runs.of_observed machine.anything (fun _ _ _ => trivial) executed
  have waiting := waitsFor_iff waits
  exact ⟨s, waiting, no_chains outbox_opening runs waiting⟩

end LedgerFlow.Outbox
