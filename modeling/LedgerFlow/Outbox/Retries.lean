import LedgerFlow.Outbox.Delivery

/-! Whether the retry counter counts every failure: it does, as long as no session that marks a failed send commits a
count that another one has changed since it was loaded. -/

namespace LedgerFlow.Outbox
open Concurrency

def failureOf (s : State machine) : Action machine → Option OutboxEvent
  | .step p _ =>
    match s.procs p with
    | none => none
    | some proc =>
      match (proc.rest.head : Option Stmt), (proc.past : List (Stmt × World)) with
      | some .commit, (.update loaded edited, _) :: _ =>
        if edited.retryCount = loaded.retryCount + 1 then some loaded else none
      | _, _ => none
  | _ => none

def recorded (eventId : UUID) (s : State machine) (a : Action machine) : Bool :=
  (failureOf s a).any (·.eventId = eventId)

/-- A `mark_failed` is committed only where the retry count is still the one that its session has loaded. -/
def UpToDate (s : State machine) (a : Action machine) : Prop :=
  ∀ loaded, failureOf s a = some loaded → ∀ row,
    (World.events s.world).rows.lookup loaded.eventId = some row → row.retryCount = loaded.retryCount

/-- The retry count of an event is the number of the failures that have been committed for it. -/
def CountsFailures (ok : State machine → Action machine → Prop) : Prop :=
  ∀ {w : World} {s : State machine} {eventId : UUID} {n : ℕ} {row : OutboxEvent}, w.Opening → Untried w →
    machine.Tally ok (recorded eventId) (machine.initial w) n s →
    (World.events s.world).rows.lookup eventId = some row → row.retryCount = n

variable {w w' : World} {s t : State machine} {a : Action machine} {ok : State machine → Action machine → Prop}
  {trace : List (Executed language)} {p : ℕ} {eventId : UUID} {row loaded edited : OutboxEvent}
    {proc : Proc machine}

theorem failureOf_cases (commits : failureOf s a = some loaded) : ∃ p choice proc edited w₁ earlier,
    a = .step p choice ∧ s.procs p = some proc ∧ proc.rest.head = some .commit ∧
      proc.past = (.update loaded edited, w₁) :: earlier ∧ edited.retryCount = loaded.retryCount + 1 := by
  unfold failureOf at commits
  split at commits
  · rename_i p choice
    split at commits
    · cases commits
    · rename_i proc found
      split at commits
      · rename_i l edited w₁ earlier head latest
        split_ifs at commits with counted
        cases commits
        exact ⟨p, choice, proc, edited, w₁, earlier, rfl, found, head, latest, counted⟩
      · cases commits
  · cases commits

theorem failureOf_step {choice : Choice} {w₁ : World} {earlier : List (Stmt × World)}
    (found : s.procs p = some proc)
    (head : proc.rest.head = some .commit) (latest : proc.past = (.update loaded edited, w₁) :: earlier)
    (counted : edited.retryCount = loaded.retryCount + 1) : failureOf s (.step p choice) = some loaded := by
  simp only [failureOf, found, head, latest, if_pos counted]

/-- What a session that has marked an event knows until its commit. -/
def MarkDrafted (p : ℕ) (φ : Turn) (w : World) : Prop :=
  ∀ loaded edited, .update loaded edited ∈ φ.edits → (Stmt.update loaded edited).mark = some loaded.eventId →
    ∃ row, w.events.rows.lookup loaded.eventId = some row ∧ w.events.locks loaded.eventId = some p ∧
      (w.events.drafts p).lookup loaded.eventId = some (row.merge loaded edited)

theorem MarkDrafted.rely {φ : Turn} (drafted : MarkDrafted p φ w) (others : World.Rely p w w') :
    MarkDrafted p φ w' := by
  intro loaded edited member mark
  obtain ⟨row, stored, locked, draft⟩ := drafted loaded edited member mark
  refine ⟨row, ?_, others.events.locks _ locked, ?_⟩
  · rw [others.events.rows _ locked, stored]
  · rw [others.events.drafts, draft]

theorem stored_of_loaded (opening : w.Opening) (traces : machine.Traces ok (machine.initial w) trace s)
    (running : Protocol.Open s p) : ∀ loaded, (turns.phase p trace).loaded = some loaded →
      ∃ row, (World.events s.world).rows.lookup loaded.eventId = some row := by
  have persists : ∀ {s t : State machine} {a : Action machine} {eventId : UUID}, contract.Covers Unused s →
      machine.step s a = some t → (∃ row, (World.events s.world).rows.lookup eventId = some row) →
      ∃ row, (World.events t.world).rows.lookup eventId = some row := by
    intro s t a eventId covered stepped stored
    obtain ⟨row, stored⟩ := stored
    rcases stored_of_step covered stepped stored with same | ⟨_, _, _, row', _, _, _, moved, _⟩
    · exact ⟨row, same⟩
    · exact ⟨row', moved⟩
  apply Protocol.knows_of_traces (P := turns)
    (K := fun _ φ w => ∀ loaded, φ.loaded = some loaded → ∃ row,
      (World.events w).rows.lookup loaded.eventId = some row) _ _ _ traces running
  · intro p loaded absurd
    cases absurd
  · intro trace s p proc choice stmt next result w' run _ found rest executed knows loaded after
    have covered := covers opening run.runs
    have further : (∃ row, (World.events s.world).rows.lookup loaded.eventId = some row) →
        ∃ row, (World.events w').rows.lookup loaded.eventId = some row :=
      persists covered (Machine.step_eq found rest executed)
    cases stmt with
    | get eventId =>
      cases result with
      | none => exact further (knows loaded after)
      | some row =>
        cases after
        have stored : some loaded = (World.events s.world).rows.lookup eventId :=
          (@loads_of_traces p w w' choice ok s trace proc opening run found eventId next rest
            (some loaded) executed).1
        apply further
        rw [covered.inv.keyed eventId loaded stored.symm]
        exact ⟨loaded, stored.symm⟩
    | commit => cases after
    | send topic document => cases result <;> exact further (knows loaded after)
    | _ => exact further (knows loaded after)
  · intro trace s t a q run _ stepped _ _ _ knows loaded after
    exact persists (covers opening run.runs) stepped (knows loaded after)

theorem markDrafted_of_traces (opening : w.Opening) (traces : machine.Traces ok (machine.initial w) trace s)
    (running : Protocol.Open s p) : MarkDrafted p (turns.phase p trace) s.world := by
  apply Protocol.knows_of_traces (P := turns) (K := MarkDrafted) _ _ _ traces running
  · intro p loaded edited member
    cases member
  · intro trace s p proc choice stmt next result w' run _ found rest executed knows
    have allows := allows_of_traces run found rest
    cases stmt with
    | now =>
      cases executed
      exact knows
    | get eventId =>
      have edits : ((turns.phase p trace).after (.get eventId) result).edits = (turns.phase p trace).edits := by
        cases result <;> rfl
      cases executed
      intro loaded edited member
      exact knows loaded edited (edits ▸ member)
    | selectPending | selectStale =>
      cases choice with
      | order eventIds =>
        obtain ⟨chosen, _, rfl, _⟩ := World.selectForUpdate_cases executed
        intro loaded edited member mark
        obtain ⟨row, stored, locked, draft⟩ := knows loaded edited member mark
        refine ⟨row, stored, ?_, draft⟩
        change (if _ then _ else _) = _
        split_ifs
        · rfl
        · exact locked
      | _ => cases executed
    | update l e =>
      intro loaded edited member mark
      rcases allows with ⟨unsent, unmarked⟩ | ⟨closed, same, _⟩
      · rcases List.mem_cons.1 member with same | earlier
        · cases same
          cases unmarked.symm.trans mark
        · obtain ⟨_, sent⟩ := (coherent_of_traces opening run p).marking _ earlier _ mark
          cases unsent.symm.trans sent
      · have empty := undrafted_of_traces opening run (Protocol.open_of_call found rest) closed
        obtain ⟨before, stored⟩ := stored_of_loaded opening run (Protocol.open_of_call found rest) l same
        change Stmt.update loaded edited ∈ _ :: (turns.phase p trace).edits at member
        rw [closed, List.mem_singleton] at member
        cases member
        obtain ⟨_, ⟨unseen, _, _⟩ | ⟨row, seen, rfl, rfl⟩⟩ := exec_update choice executed
        · rw [Store.visible_of_drafts empty] at unseen
          cases unseen.symm.trans stored
        · rw [Store.visible_of_drafts empty] at seen
          exact ⟨row, seen, Function.update_self .., by rw [Store.drafts_draft, AList.lookup_insert]⟩
    | commit =>
      intro loaded edited member
      cases member
    | send topic document =>
      have edits : ((turns.phase p trace).after (.send topic document) result).edits =
          (turns.phase p trace).edits := by
        cases result <;> rfl
      intro loaded edited member mark
      obtain ⟨row, stored, locked, draft⟩ := knows loaded edited (edits ▸ member) mark
      have same : World.events w' = World.events s.world := (exec_send executed).1
      rw [same]
      exact ⟨row, stored, locked, draft⟩
  · intro trace s t a q run _ stepped notMine notClosed _ knows
    exact knows.rely (rely_of_others (covers opening run.runs) stepped notMine notClosed)

theorem committed_failure (opening : w.Opening) (run : machine.Traces ok (machine.initial w) trace s)
    (commits : failureOf s a = some loaded) (stepped : machine.step s a = some t) :
    ∃ row row', (World.events s.world).rows.lookup loaded.eventId = some row ∧
      (World.events t.world).rows.lookup loaded.eventId = some row' ∧ row'.retryCount = loaded.retryCount + 1 := by
  obtain ⟨p, choice, proc, edited, w₁, earlier, rfl, found, head, latest, counted⟩ := failureOf_cases commits
  have mark : (Stmt.update loaded edited).mark = some loaded.eventId := if_pos (.inr counted)
  obtain ⟨succeeded, sent, loads, marked⟩ := marked_of_mark opening run found latest mark
  have failed : succeeded = false := by
    cases succeeded with
    | false => rfl
    | true =>
      obtain ⟨now, rfl⟩ := marked
      change loaded.retryCount = loaded.retryCount + 1 at counted
      omega
  subst failed
  obtain ⟨before, stmt, next, result, w', found', rest, executed, rfl⟩ := Machine.step_own stepped
  cases found.symm.trans found'
  rw [rest] at head
  cases head
  rcases allows_of_traces run found rest with unsent |
    ⟨eventId, outcome, row, edited', sent', loads', marked', written⟩
  · cases unsent.symm.trans sent
  · cases sent.symm.trans sent'
    cases loads.symm.trans loads'
    have fails : Fails loaded edited' := marked'
    have count : edited'.retryCount = loaded.retryCount + 1 := by cases fails <;> rfl
    have changed : ¬loaded.Unchanged edited' := by
      intro unchanged
      have same := unchanged.2.1
      omega
    have mark' : (Stmt.update loaded edited').mark = some loaded.eventId := if_pos (.inr count)
    obtain ⟨row, stored, _, draft⟩ := markDrafted_of_traces opening run
      (Protocol.open_of_call found rest) loaded edited' (written.resolve_right changed) mark'
    cases executed
    refine ⟨row, row.merge loaded edited', stored, Store.visible_of_drafted draft, ?_⟩
    simp [OutboxEvent.merge, OutboxEvent.column, count]

theorem recorded_cases (counts : recorded eventId s a = true) : ∃ loaded, failureOf s a = some loaded ∧
    loaded.eventId = eventId := by
  unfold recorded at counts
  cases commits : failureOf s a with
  | none => simp [commits] at counts
  | some loaded =>
    rw [commits, Option.any_some, decide_eq_true_eq] at counts
    exact ⟨loaded, rfl, counts⟩

theorem retries_of_step (opening : w.Opening) (run : machine.Traces ok (machine.initial w) trace s)
    (upToDate : UpToDate s a)
    (stepped : machine.step s a = some t) (stored : (World.events s.world).rows.lookup eventId = some row) :
    ∃ row', (World.events t.world).rows.lookup eventId = some row' ∧
      row'.retryCount = row.retryCount + (recorded eventId s a).toNat := by
  have covered := covers opening run.runs
  cases counts : recorded eventId s a with
  | true =>
    obtain ⟨loaded, commits, rfl⟩ := recorded_cases counts
    obtain ⟨row₁, row', stored', moved, count⟩ := committed_failure opening run commits stepped
    have current := upToDate loaded commits row stored
    refine ⟨row', moved, ?_⟩
    rw [count, current]
    rfl
  | false =>
    rcases stored_of_step covered stepped stored with same |
      ⟨p, choice, proc, row', rfl, found, head, moved, moves⟩
    · exact ⟨row, same, rfl⟩
    · refine ⟨row', moved, ?_⟩
      cases moves with
      | recovers | claims => rfl
      | marks loaded edited w₁ earlier latest same marks =>
        cases marks with
        | published now =>
          simp [OutboxEvent.merge, OutboxEvent.published, OutboxEvent.column]
        | failed fails =>
          have count : edited.retryCount = loaded.retryCount + 1 := by cases fails <;> rfl
          have own : loaded.eventId = eventId := same.trans (covered.inv.keyed eventId row stored)
          have commits : failureOf s (.step p choice) = some loaded := failureOf_step found head latest count
          rw [recorded, commits] at counts
          simp [own] at counts

theorem retries_of_absent (opening : w.Opening) (run : machine.Traces ok (machine.initial w) trace s)
    (stepped : machine.step s a = some t) (absent : (World.events s.world).rows.lookup eventId = none) :
    recorded eventId s a = false ∧
      ∀ row, (World.events t.world).rows.lookup eventId = some row → row.retryCount = 0 := by
  constructor
  · by_contra counts
    obtain ⟨loaded, commits, rfl⟩ := recorded_cases (Bool.eq_true_of_not_eq_false counts)
    obtain ⟨row, _, stored, _⟩ := committed_failure opening run commits stepped
    cases absent.symm.trans stored
  · intro row stored
    rcases Machine.step_cases stepped with ⟨p, request, rfl, fresh, rfl⟩ |
      ⟨p, choice, proc, stmt, next, result, w', rfl, found, rest, executed, rfl⟩ |
      ⟨p, proc, rfl, found, running, rfl⟩ | ⟨p, proc, rfl, found, finished, rfl⟩ |
        ⟨e, w', rfl, ticked, rfl⟩
    · cases absent.symm.trans stored
    · rcases (sound.guar_of_step (covers opening run.runs) found rest executed).1.moves eventId with
        same | ⟨before, _, stored', _, _⟩
      · cases absent.symm.trans (same.symm.trans stored)
      · cases absent.symm.trans stored'
    · cases absent.symm.trans stored
    · cases absent.symm.trans stored
    · rcases post_rows ticked eventId row stored with before | ⟨_, fresh⟩
      · cases absent.symm.trans before
      · exact fresh

theorem retries_of_tally {n : ℕ} (opening : w.Opening) (untried : Untried w)
    (tally : machine.Tally UpToDate (recorded eventId) (machine.initial w) n s) :
    (∀ row, (World.events s.world).rows.lookup eventId = some row → row.retryCount = n) ∧
      ((World.events s.world).rows.lookup eventId = none → n = 0) := by
  induction tally with
  | refl => exact ⟨fun row stored => (untried eventId row stored).2, fun _ => rfl⟩
  | @tail n s t a run upToDate stepped ih =>
    obtain ⟨trace, traces⟩ := Machine.Runs.traces run.runs
    cases before : (World.events s.world).rows.lookup eventId with
    | none =>
      obtain ⟨uncounted, fresh⟩ := retries_of_absent opening traces stepped before
      have none := ih.2 before
      rw [uncounted, none]
      exact ⟨fresh, fun _ => rfl⟩
    | some row =>
      obtain ⟨row', stored', count⟩ := retries_of_step opening traces upToDate stepped before
      have current := ih.1 row before
      constructor
      · intro row'' stored''
        cases stored'.symm.trans stored''
        omega
      · intro absent
        cases stored'.symm.trans absent

theorem counts_failures {n : ℕ} (opening : w.Opening) (untried : Untried w)
    (tally : machine.Tally UpToDate (recorded eventId) (machine.initial w) n s)
    (stored : (World.events s.world).rows.lookup eventId = some row) : row.retryCount = n :=
  (retries_of_tally opening untried tally).1 row stored

def upToDate (s : State machine) (a : Action machine) : Bool :=
  (failureOf s a).all fun loaded =>
    ((World.events s.world).rows.lookup loaded.eventId).all fun row => row.retryCount = loaded.retryCount

theorem upToDate_iff (s : State machine) (a : Action machine) : upToDate s a ↔ UpToDate s a := by
  simp [upToDate, UpToDate, Option.all_eq_true]

/-- The event fails twice, the second time at a later claim. -/
theorem counts_failures_sample : ∃ (s : State machine) (row : OutboxEvent),
    machine.Tally UpToDate (recorded 5) (machine.initial outbox) 2 s ∧
      (World.events s.world).rows.lookup 5 = some row ∧ row.retryCount = 2 := by
  have executed : (machine.count upToDate (recorded 5) 0 (machine.initial outbox)
      (claim 0 ++ fail 0 ++ [.tick (.elapse 2000000)] ++ claim 1 ++ fail 1)).map
        (fun ended => (ended.1, ((World.events ended.2.world).rows.lookup 5).isSome)) = some (2, true) := by
    decide +kernel
  obtain ⟨⟨n, s⟩, reached, observed⟩ := Option.map_eq_some_iff.1 executed
  simp only [Prod.mk.injEq] at observed
  obtain ⟨rfl, present⟩ := observed
  obtain ⟨row, stored⟩ := Option.isSome_iff_exists.1 present
  have tally : machine.Tally UpToDate (recorded 5) (machine.initial outbox) 2 s :=
    .of_count (fun s a => (upToDate_iff s a).1) .refl reached
  exact ⟨s, row, tally, stored, counts_failures outbox_opening outbox_untried tally stored⟩

/-- Two workers hold the event, and both load it before either of them commits its failure. -/
def overlap : List (Action machine) :=
  claim 0 ++ [.tick (.elapse 30000000)] ++ recoverAndClaim 1 ++
    [.step 0 (.sendFails "timeout" false), .step 0 .proceed, .step 0 .proceed] ++
    [.step 1 (.sendFails "timeout" false), .step 1 .proceed, .step 1 .proceed] ++
    [.step 0 .proceed, .step 0 .proceed, .step 1 .proceed, .step 1 .proceed]

theorem not_counts_failures : ¬CountsFailures machine.anything := by
  intro counts
  have executed : (machine.count (fun _ _ => true) (recorded 5) 0 (machine.initial outbox) overlap).map
      (fun ended => (ended.1, ((World.events ended.2.world).rows.lookup 5).map (·.retryCount))) =
        some (2, some 1) := by
    decide +kernel
  obtain ⟨⟨n, s⟩, reached, observed⟩ := Option.map_eq_some_iff.1 executed
  simp only [Prod.mk.injEq] at observed
  obtain ⟨row, stored, count⟩ := Option.map_eq_some_iff.1 observed.2
  have tally : machine.Tally machine.anything (recorded 5) (machine.initial outbox) n s :=
    .of_count (fun _ _ _ => trivial) .refl reached
  have all := counts outbox_opening outbox_untried tally stored
  omega

end LedgerFlow.Outbox
