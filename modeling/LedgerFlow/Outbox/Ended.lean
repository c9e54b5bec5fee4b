import LedgerFlow.Outbox.Drain
import LedgerFlow.Outbox.Turns

/-! An event that has come to its end, and that no batch in progress still has in its hands, is left alone for
good: it is neither changed nor sent, also where it has not been published. -/

namespace LedgerFlow.Outbox
open Concurrency

/-- A batch in progress has claimed the event and has not marked it yet. -/
def InHand (eventId : UUID) (s : State machine) : Prop :=
  ∃ p proc t, s.procs p = some proc ∧ ¬proc.rest.Finished ∧ (eventId, t) ∈ committed Stmt.claim proc.past ∧
    eventId ∉ committed Stmt.mark proc.past

def SentOthers (eventId : UUID) (w w' : World) : Prop :=
  ∃ new, w'.log = w.log ++ new ∧ ∀ sent ∈ new, sent.2.item "event_id" ≠ .ok (.str eventId.str)

variable {ok : State machine → Action machine → Prop} {w w' : World} {s t : State machine} {eventId : UUID}
  {row : OutboxEvent} {a : Action machine} {p : ℕ} {trace : List (Executed language)}

theorem SentOthers.refl (w : World) : SentOthers eventId w w :=
  ⟨[], (List.append_nil _).symm, fun _ absurd => (List.not_mem_nil absurd).elim⟩

theorem SentOthers.trans {w'' : World} (first : SentOthers eventId w w') (second : SentOthers eventId w' w'') :
    SentOthers eventId w w'' := by
  obtain ⟨new, grown, others⟩ := first
  obtain ⟨newer, grown', others'⟩ := second
  refine ⟨new ++ newer, by rw [grown', grown, List.append_assoc], fun sent member => ?_⟩
  rcases List.mem_append.1 member with old | young
  · exact others sent old
  · exact others' sent young

theorem Ended.not_pending (ended : Ended row) : row.status ≠ .pending := by
  intro pending
  cases ended with
  | published status | failed status | orphaned status => cases status.symm.trans pending

theorem Moves.marked_of_ended {past : List (Stmt × World)} {clock : Timestamp} {row' : OutboxEvent}
    (moves : Moves past clock row row') (ended : Ended row) :
    ∃ loaded edited w earlier, past = (.update loaded edited, w) :: earlier ∧ loaded.eventId = row.eventId ∧
      Marks loaded edited := by
  cases moves with
  | recovers now claimed processing since =>
    cases ended with
    | published status | failed status => cases status.symm.trans processing
    | orphaned _ unknown => cases unknown.symm.trans since
  | claims now due => exact absurd due.1 ended.not_pending
  | marks loaded edited w earlier updated same marks => exact ⟨loaded, edited, w, earlier, updated, same, marks⟩

theorem unfinished_of_head {proc : Proc machine} {stmt : Stmt} (head : proc.rest.head = some stmt) :
    ¬proc.rest.Finished := by
  obtain ⟨request, started, past, rest⟩ := proc
  cases rest with
  | call => exact id
  | ret | raise => cases head

theorem kept_of_step (opening : w.Opening) (traces : machine.Traces ok (machine.initial w) trace s)
    (stored : World.table s.world eventId = some row) (ended : Ended row) (free : ¬InHand eventId s)
    (stepped : machine.step s a = some t) : World.table t.world eventId = some row := by
  have covered := covers opening traces.runs
  rcases stored_of_step covered stepped stored with same | ⟨p, choice, proc, row', rfl, found, commits, _, moves⟩
  · exact same
  · obtain ⟨loaded, edited, w₁, earlier, updated, same, marks⟩ := moves.marked_of_ended ended
    have own : loaded.eventId = eventId := same.trans (covered.inv.keyed eventId row stored)
    obtain ⟨succeeded, sent, _⟩ := marked_of_traces opening traces found updated marks
    obtain ⟨τ, proc', found', claimed, unmarked⟩ := live_of_sent opening traces found (own ▸ sent)
    cases found.symm.trans found'
    exact absurd ⟨p, proc, τ, found, unfinished_of_head commits, claimed, unmarked⟩ free

theorem inHand_of_step (covered : contract.Covers Unused s) (stored : World.table s.world eventId = some row)
    (settled : row.status ≠ .pending) (stepped : machine.step s a = some t) (after : InHand eventId t) :
    InHand eventId s := by
  obtain ⟨p, proc, τ, found, running, claimed, unmarked⟩ := after
  by_cases before : Claims p eventId τ s
  · obtain ⟨proc₀, found₀, claimed₀⟩ := before
    rcases Machine.step_cases stepped with ⟨q, request, rfl, fresh, rfl⟩ |
      ⟨q, choice, proc', stmt, next, result, w', rfl, found', rest, executed, rfl⟩ |
      ⟨q, proc', rfl, found', unfinished, rfl⟩ | ⟨q, proc', rfl, found', finished, rfl⟩ |
        ⟨e, w', rfl, ticked, rfl⟩
    · rcases Machine.found_update found with ⟨rfl, rfl⟩ | ⟨_, old⟩
      · cases fresh.symm.trans found₀
      · exact ⟨p, proc, τ, old, running, claimed, unmarked⟩
    · rcases Machine.found_update found with ⟨rfl, rfl⟩ | ⟨_, old⟩
      · cases found'.symm.trans found₀
        exact ⟨p, proc₀, τ, found', Protocol.open_of_call found' rest proc₀ found', claimed₀,
          fun marked => unmarked (committed_cons marked)⟩
      · exact ⟨p, proc, τ, old, running, claimed, unmarked⟩
    · rcases Machine.found_update found with ⟨rfl, rfl⟩ | ⟨_, old⟩
      · exact absurd trivial running
      · exact ⟨p, proc, τ, old, running, claimed, unmarked⟩
    · exact ⟨p, proc, τ, found, running, claimed, unmarked⟩
    · exact ⟨p, proc, τ, found, running, claimed, unmarked⟩
  · obtain ⟨row', _, stored', due, _⟩ := due_of_claims covered stepped before ⟨proc, found, claimed⟩
    cases stored'.symm.trans stored
    exact absurd due.1 settled

theorem inHand_of_send (opening : w.Opening) (traces : machine.Traces ok (machine.initial w) trace s)
    {proc : Proc machine}
    (found : s.procs p = some proc) {topic : String} {document : Json} {next : Except String Unit → Code ℕ}
    (rest : proc.rest = .call (.send topic document) next) : ∃ row, document = message row ∧
    InHand row.eventId s := by
  obtain ⟨_, _, _, row, others, todo, same, τ, claimed⟩ := allows_of_traces traces found rest
  have coherent := coherent_of_traces opening traces p
  have records := records_of_traces traces found
  have pending : row.eventId ∈ (turns.phase p trace).pending := by
    rw [Turn.pending, todo]
    exact List.mem_append_right _ List.mem_cons_self
  exact ⟨row, same, p, proc, τ, found, Protocol.open_of_call found rest proc found, records.claims ▸ claimed,
    records.marks ▸ coherent.unmarked row.eventId pending⟩

theorem sentOthers_of_step (opening : w.Opening) (traces : machine.Traces ok (machine.initial w) trace s)
    (free : ¬InHand eventId s) (stepped : machine.step s a = some t) : SentOthers eventId s.world t.world := by
  have unchanged : ∀ {u v : World}, v.log = u.log → SentOthers eventId u v :=
    fun same => ⟨[], same.trans (List.append_nil _).symm, fun _ absurd => (List.not_mem_nil absurd).elim⟩
  rcases Machine.step_cases stepped with ⟨q, request, rfl, fresh, rfl⟩ |
    ⟨q, choice, proc, stmt, next, result, w', rfl, found, rest, executed, rfl⟩ |
    ⟨q, proc, rfl, found, running, rfl⟩ | ⟨q, proc, rfl, found, finished, rfl⟩ | ⟨e, w', rfl, ticked, rfl⟩
  · exact .refl _
  · by_cases sends : ∃ topic document, stmt = .send topic document
    · obtain ⟨topic, document, rfl⟩ := sends
      obtain ⟨row, rfl, inHand⟩ := inHand_of_send opening traces found rest
      have different : (message row).item "event_id" ≠ .ok (.str eventId.str) := by
        intro same
        rw [message_event_id, Except.ok.injEq, Json.str.injEq] at same
        exact free (UUID.str_injective same ▸ inHand)
      have added : SentOthers eventId s.world (World.message topic (message row) s.world) := by
        refine ⟨[(topic, message row)], rfl, fun sent member => ?_⟩
        rw [List.mem_singleton.1 member]
        exact different
      rcases send_cases executed with ⟨_, rfl⟩ | ⟨error, delivered, _, rfl⟩
      · exact added
      · cases delivered with
        | true => exact added
        | false => exact .refl _
    · exact unchanged (log_of_exec (fun topic document same => sends ⟨topic, document, same⟩) executed)
  · exact .refl _
  · exact unchanged rfl
  · cases e with
    | elapse =>
      cases ticked
      exact unchanged rfl
    | post eventId aggregateId eventType payload createdAt =>
      simp only [machine, World.tick] at ticked
      split_ifs at ticked
      cases ticked
      exact unchanged rfl

/-- An event that has come to its end and that no batch has in its hands stays as it is in every later run,
and it is not sent again: this holds of a published event, but also of one that has failed, and of one that is
claimed since nobody knows when. -/
theorem left_alone (opening : w.Opening) (reached : machine.Runs machine.anything (machine.initial w) s)
    (stored : World.table s.world eventId = some row) (ended : Ended row) (free : ¬InHand eventId s)
    (later : machine.Runs machine.anything s t) :
    World.table t.world eventId = some row ∧ SentOthers eventId s.world t.world := by
  have kept : World.table t.world eventId = some row ∧ SentOthers eventId s.world t.world ∧
      ¬InHand eventId t := by
    induction later with
    | refl => exact ⟨stored, .refl _, free⟩
    | tail earlier stepped ih =>
      obtain ⟨a, _, stepped⟩ := stepped
      obtain ⟨stored', others, free'⟩ := ih
      obtain ⟨trace, traces⟩ := Machine.Runs.traces (reached.trans earlier)
      refine ⟨kept_of_step opening traces stored' ended free' stepped,
        others.trans (sentOthers_of_step opening traces free' stepped), fun inHand => free' ?_⟩
      exact inHand_of_step (covers opening traces.runs) stored' ended.not_pending stepped inHand
  exact ⟨kept.1, kept.2.1⟩

/-! An event that is claimed since nobody knows when. -/

/-- Worker 1 loads the event while it is pending, worker 0 while it is published, and each of them writes the
columns that it has changed, and no others, over what has become of the event by then. Worker 3 is cut off. -/
def orphaning : List (Action machine) :=
  claim 0 ++ [.tick (.elapse 30000000)] ++ recoverAndClaim 1 ++ [.tick (.elapse 30000000)] ++
    (recoverAndClaim 2).take 5 ++
    (succeed 1).take 2 ++ (recoverAndClaim 2).drop 5 ++ (succeed 1).drop 2 ++ (succeed 0).take 2 ++ fail 2 ++
    [.tick (.elapse 2000000)] ++ claim 3 ++ (succeed 0).drop 2 ++ [.abort 3, .close 3]

def orphaned (s : State machine) : Bool :=
  ((s.world : World).table 5).any (fun row => row.status = .processing && row.claimedAt.isNone) &&
    (List.range 4).all fun q => (s.procs q).all fun proc => proc.rest.Finished

def startsFirst : Action machine → Bool
  | .start p _ => p < 4
  | _ => true

def lookAgain : List (Action machine) :=
  [.tick (.elapse 3600000000), .start 4 (100 : ℕ), .step 4 .proceed, .step 4 (.order []), .step 4 .proceed,
    .step 4 .proceed, .step 4 (.order []), .step 4 .proceed]

theorem left_alone_sample : ∃ s t row, machine.Runs machine.anything (machine.initial outbox) s ∧
    World.table s.world 5 = some row ∧ row.status = .processing ∧ row.claimedAt = none ∧
    machine.Runs machine.anything s t ∧ World.table t.world 5 = some row ∧ SentOthers 5 s.world t.world := by
  have executed : (machine.run (fun _ _ => true) (machine.initial outbox) orphaning).map (fun s =>
      (orphaned s, (machine.run (fun _ _ => true) s lookAgain).isSome)) = some (true, true) := by
    decide +kernel
  obtain ⟨s, reached, observed⟩ := Option.map_eq_some_iff.1 executed
  simp only [Prod.mk.injEq] at observed
  obtain ⟨found, later⟩ := observed
  obtain ⟨t, later⟩ := Option.isSome_iff_exists.1 later
  rw [orphaned, Bool.and_eq_true] at found
  obtain ⟨row, stored, claimed⟩ := (Option.any_eq_true _ _).1 found.1
  simp only [Bool.and_eq_true, decide_eq_true_eq, Option.isNone_iff_eq_none] at claimed
  have few : ∀ a ∈ orphaning, startsFirst a := by
    decide
  have free : ¬InHand 5 s := by
    rintro ⟨p, proc, _, started, running, _⟩
    by_cases below : p < 4
    · have ended := List.all_eq_true.1 found.2 p (List.mem_range.2 below)
      rw [started] at ended
      exact running (of_decide_eq_true ended)
    · have never : ∀ a ∈ orphaning, ∀ request, a ≠ .start p request := by
        intro a member request same
        have first := few a member
        rw [same] at first
        exact below (of_decide_eq_true first)
      cases started.symm.trans (Machine.procs_of_run reached rfl never)
  have before : machine.Runs machine.anything (machine.initial outbox) s := .of_run (fun _ _ _ => trivial) reached
  have runs : machine.Runs machine.anything s t := .of_run (fun _ _ _ => trivial) later
  obtain ⟨kept, others⟩ := left_alone outbox_opening before stored (.orphaned claimed.1 claimed.2) free runs
  exact ⟨s, t, row, before, stored, claimed.1, claimed.2, runs, kept, others⟩

end LedgerFlow.Outbox
