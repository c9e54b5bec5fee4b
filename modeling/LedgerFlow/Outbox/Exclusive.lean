import LedgerFlow.Outbox.Delivery

/-! One publication per event: while no claim comes to its timeout before it is marked, an event is in the
hands of one worker at a time and is sent successfully once. -/

namespace LedgerFlow.Outbox
open Concurrency

/-- No claim has come to its timeout before it is marked. -/
def Punctual (s : State machine) (_ : Action machine) : Prop :=
  ∀ p eventId t, Live p eventId t s → World.clock s.world < t + seconds claimTimeoutSeconds

/-- A live claim is on a row that is PROCESSING since then, and nobody else has one. -/
structure Possession (s : State machine) : Prop where
  held : ∀ {p eventId t}, Live p eventId t s → ∃ row, (World.events s.world).rows.lookup eventId = some row ∧
    row.status = .processing ∧ row.claimedAt = some t
  exclusive : ∀ {p q eventId t t'}, Live p eventId t s → Live q eventId t' s → p = q

variable {w w' : World} {s s' : State machine} {a : Action machine} {p q : ℕ} {eventId : UUID} {t t' : Timestamp}
  {trace : List (Executed language)} {proc : Proc machine} {ok : State machine → Action machine → Prop}

theorem live_of_step (stepped : machine.step s a = some s') (live : Live p eventId t s') :
    Live p eventId t s ∨ ∃ choice proc loaded edited w₁, a = .step p choice ∧ s.procs p = some proc ∧
      proc.rest.head = some .commit ∧ (.update loaded edited, w₁) ∈ sinceCommit proc.past ∧
      loaded.eventId = eventId ∧
      edited.claimedAt = some t := by
  obtain ⟨proc, found, claimed, unmarked⟩ := live
  rcases Machine.step_cases stepped with ⟨q, request, rfl, fresh, rfl⟩ |
    ⟨q, choice, before, stmt, next, result, w', rfl, found', rest, executed, rfl⟩ |
    ⟨q, before, rfl, found', running, rfl⟩ | ⟨q, before, rfl, found', finished, rfl⟩ |
      ⟨e, w', rfl, ticked, rfl⟩
  · rcases Machine.found_update found with ⟨rfl, rfl⟩ | ⟨_, found⟩
    · cases claimed
    · exact .inl ⟨proc, found, claimed, unmarked⟩
  · rcases Machine.found_update found with ⟨rfl, rfl⟩ | ⟨_, found⟩
    · rcases committed_cases claimed with earlier | ⟨rfl, ⟨stmt, w₁⟩, member, made⟩
      · exact .inl ⟨before, found', earlier, fun marked => unmarked (committed_cons marked)⟩
      · obtain ⟨loaded, edited, rfl, own, since⟩ := claim_cases stmt made
        exact .inr ⟨choice, before, loaded, edited, w₁, rfl, found', by rw [rest]; rfl, member, own, since⟩
    · exact .inl ⟨proc, found, claimed, unmarked⟩
  · rcases Machine.found_update found with ⟨rfl, rfl⟩ | ⟨_, found⟩
    · exact .inl ⟨before, found', claimed, unmarked⟩
    · exact .inl ⟨proc, found, claimed, unmarked⟩
  · exact .inl ⟨proc, found, claimed, unmarked⟩
  · exact .inl ⟨proc, found, claimed, unmarked⟩

theorem not_live_of_mark (stepped : machine.step s (.step p choice) = some s') (found : s.procs p = some proc)
    (commits : proc.rest.head = some .commit) {loaded edited : OutboxEvent} {w₁ : World}
    {earlier : List (Stmt × World)}
    (latest : proc.past = (.update loaded edited, w₁) :: earlier) (marks : Marks loaded edited) :
    ¬Live p loaded.eventId t s' := by
  rintro ⟨after, found', _, unmarked⟩
  obtain ⟨before, stmt, next, result, w', found'', rest, executed, rfl⟩ := Machine.step_own stepped
  cases found.symm.trans found''
  rw [rest] at commits
  cases commits
  simp only [Function.update_self, Option.some.injEq] at found'
  subst found'
  apply unmarked
  apply List.mem_append_left
  rw [latest]
  exact List.mem_filterMap.2 ⟨(.update loaded edited, w₁), List.mem_cons_self, marks.mark⟩

/-- A commit leaves the rows alone on which another claim is live. -/
theorem Possession.keeps (opening : w.Opening) (run : machine.Traces ok (machine.initial w) trace s)
    (possession : Possession s)
    (punctual : Punctual s a) (stepped : machine.step s a = some s') (before : Live p eventId t s)
    (after : Live p eventId t s') :
    ∃ row, (World.events s'.world).rows.lookup eventId = some row ∧ row.status = .processing ∧
    row.claimedAt = some t := by
  obtain ⟨row, stored, processing, since⟩ := possession.held before
  have covered := covers opening run.runs
  rcases stored_of_step covered stepped stored with same |
    ⟨q, choice, proc, row', rfl, found, commits, moved, moves⟩
  · exact ⟨row, same, processing, since⟩
  · cases moves with
    | recovers now claimed _ claimedAt stale early =>
      cases since.symm.trans claimedAt
      exact absurd (stale.trans early) (not_le.2 (punctual p eventId t before))
    | claims now due => cases processing.symm.trans due.1
    | marks loaded edited w₁ earlier latest same marks =>
      have own : loaded.eventId = eventId := same.trans (covered.inv.keyed eventId row stored)
      obtain ⟨outcome, sent, _⟩ := marked_of_traces opening run found latest marks
      rw [own] at sent
      obtain ⟨t', mine⟩ := live_of_sent opening run found sent
      obtain rfl := possession.exclusive before mine
      exact absurd (own ▸ after) (not_live_of_mark stepped found commits latest marks)

theorem taken_of_commit (covered : contract.Covers Unused s) {choice : Choice}
    (stepped : machine.step s (.step p choice) = some s') (found : s.procs p = some proc)
    (commits : proc.rest.head = some .commit) {loaded edited : OutboxEvent} {w₁ : World}
    (member : (.update loaded edited, w₁) ∈ sinceCommit proc.past) (since : edited.claimedAt = some t) :
    (World.events s.world).rows.lookup loaded.eventId = some loaded ∧ Due t loaded ∧ t ≤ s.world.clock ∧
      (World.events s'.world).rows.lookup loaded.eventId = some (loaded.claimed t) := by
  obtain ⟨before, stmt, next, result, w', found', rest, executed, rfl⟩ := Machine.step_own stepped
  cases found.symm.trans found'
  exact (sound.guar_of_step covered found rest executed).1.claims loaded edited w₁ t commits member since

theorem Possession.step (opening : w.Opening) (run : machine.Traces ok (machine.initial w) trace s)
    (possession : Possession s)
    (punctual : Punctual s a) (stepped : machine.step s a = some s') : Possession s' := by
  have covered := covers opening run.runs
  -- nobody has an event that is taken now
  have fresh : ∀ {p q choice proc loaded edited w₁ t t'}, a = .step p choice → s.procs p = some proc →
      proc.rest.head = some .commit → (.update loaded edited, w₁) ∈ sinceCommit proc.past →
        edited.claimedAt = some t → ¬Live q loaded.eventId t' s := by
    intro p q choice proc loaded edited w₁ t t' same found commits member since live
    subst same
    obtain ⟨stored, ⟨pending, _⟩, _⟩ := taken_of_commit covered stepped found commits member since
    obtain ⟨row, stored', processing, _⟩ := possession.held live
    cases stored.symm.trans stored'
    cases pending.symm.trans processing
  refine ⟨fun {p eventId t} live => ?_, fun {p q eventId t t'} first second => ?_⟩
  · rcases live_of_step stepped live with before |
      ⟨choice, proc, loaded, edited, w₁, rfl, found, commits, member, rfl, since⟩
    · exact possession.keeps opening run punctual stepped before live
    · obtain ⟨_, _, _, stored⟩ := taken_of_commit covered stepped found commits member since
      exact ⟨_, stored, rfl, rfl⟩
  · rcases live_of_step stepped first with before |
      ⟨choice, proc, loaded, edited, w₁, same, found, commits, member, rfl, since⟩
    · rcases live_of_step stepped second with before' | ⟨_, _, _, _, _, same, found, commits, member, rfl, since⟩
      · exact possession.exclusive before before'
      · exact absurd before (fresh same found commits member since)
    · rcases live_of_step stepped second with before' | ⟨_, _, _, _, _, same', _⟩
      · exact absurd before' (fresh same found commits member since)
      · cases same.symm.trans same'
        rfl

theorem possession_of_traces (opening : w.Opening) (traces : machine.Traces Punctual (machine.initial w) trace s) :
    Possession s := by
  induction traces with
  | refl =>
    have none : ∀ p eventId t, ¬Live p eventId t (machine.initial w) := by
      rintro p eventId t ⟨proc, found, _⟩
      cases found
    exact ⟨fun live => absurd live (none _ _ _), fun live => absurd live (none _ _ _)⟩
  | tail run punctual stepped ih => exact ih.step opening run punctual stepped

/-! What a call has loaded and drafted. -/

theorem held_of_sent (opening : w.Opening) (run : machine.Traces Punctual (machine.initial w) trace s)
    (found : s.procs p = some proc) {succeeded : Bool}
    (sent : (turns.phase p trace).sent = some (eventId, succeeded)) :
    ∃ row, (World.events s.world).rows.lookup eventId = some row ∧ row.status = .processing := by
  obtain ⟨t, live⟩ := live_of_sent opening run found sent
  obtain ⟨row, stored, processing, _⟩ := (possession_of_traces opening run).held live
  exact ⟨row, stored, processing⟩

theorem loads_processing (opening : w.Opening) (run : machine.Traces Punctual (machine.initial w) trace s)
    (found : s.procs p = some proc) {next : Option OutboxEvent → Code ℕ}
    (rest : proc.rest = .call (.get eventId) next)
    (choice : Choice) {row : Option OutboxEvent} (executed : exec p (.get eventId) choice s.world = some (row, w')) :
    ∃ loaded, row = some loaded ∧ loaded.status = .processing := by
  obtain ⟨_, _, succeeded, sent⟩ := allows_of_traces run found rest
  obtain ⟨loaded, stored, processing⟩ := held_of_sent opening run found sent
  exact ⟨loaded, (loads_of_traces opening run found rest executed).1.trans stored, processing⟩

theorem loaded_processing (opening : w.Opening) (run : machine.Traces Punctual (machine.initial w) trace s)
    {row : OutboxEvent} (loaded : (turns.phase p trace).loaded = some row) : row.status = .processing := by
  induction run with
  | refl => cases loaded
  | @tail trace s u a run _ stepped ih =>
    by_cases mine : ∃ choice, a = .step p choice
    · obtain ⟨choice, rfl⟩ := mine
      obtain ⟨proc, stmt, next, result, w', found, rest, executed, rfl⟩ := Machine.step_own stepped
      rw [Protocol.phase_of_own found rest executed] at loaded
      cases stmt with
      | now | selectPending | selectStale | update => exact ih loaded
      | commit => cases loaded
      | send topic document =>
        cases result <;> exact ih loaded
      | get eventId =>
        obtain ⟨row', rfl, processing⟩ := loads_processing opening run found rest choice executed
        cases loaded
        exact processing
    · rw [Protocol.phase_of_other fun choice same => mine ⟨choice, same⟩] at loaded
      exact ih loaded

def Drafts (p : ℕ) (φ : Turn) (w : World) : Prop :=
  ∀ loaded edited, φ.loaded = some loaded → .update loaded edited ∈ φ.edits →
    ∃ row, (w.events.drafts p).lookup loaded.eventId = some (OutboxEvent.merge row loaded edited)

theorem drafts_of_traces (opening : w.Opening) (traces : machine.Traces Punctual (machine.initial w) trace s)
    (running : Protocol.Open s p) : Drafts p (turns.phase p trace) s.world := by
  apply Protocol.knows_of_traces (P := turns) (K := Drafts) _ _ _ traces running
  · exact fun p _ _ absurd => by cases absurd
  · intro trace s p proc choice stmt next result w' run _ found rest executed knows loaded edited row edits
    cases stmt with
    | now =>
      cases executed
      exact knows loaded edited row edits
    | selectPending | selectStale =>
      cases choice with
      | order eventIds =>
        obtain ⟨_, _, rfl, _⟩ := World.selectForUpdate_cases executed
        exact knows loaded edited row edits
      | _ => cases executed
    | get eventId =>
      -- nothing has been drafted yet
      have closed := (allows_of_traces run found rest).2.1
      have none : (turns.after (turns.phase p trace) (.get eventId) result).edits = [] := by
        cases result <;> exact closed
      rw [none] at edits
      cases edits
    | commit => cases edits
    | send topic document =>
      have same : World.events w' = World.events s.world := (exec_send executed).1
      rw [same]
      cases result <;> exact knows loaded edited row edits
    | update loaded' edited' =>
      have allows := allows_of_traces run found rest
      have coherent := coherent_of_traces opening run p
      obtain ⟨succeeded, sent⟩ := coherent.loaded loaded row
      rcases allows with ⟨unsent, _⟩ | ⟨closed, row', _⟩
      · cases unsent.symm.trans sent
      · cases row.symm.trans row'
        have same : .update loaded edited = Stmt.update loaded edited' := by
          rcases List.mem_cons.1 edits with new | earlier
          · exact new
          · rw [closed] at earlier
            cases earlier
        cases same
        obtain ⟨held, stored, _⟩ := held_of_sent opening run found sent
        obtain ⟨_, ⟨missing, _⟩ | ⟨merged, _, _, rfl⟩⟩ := exec_update choice executed
        · have absent : loaded.eventId ∉ (World.events s.world).drafts p ∪ (World.events s.world).rows :=
            AList.lookup_eq_none.1 missing
          exact absurd (AList.mem_union.2 (.inr (AList.lookup_isSome.1 (by rw [stored]; rfl)))) absent
        · exact ⟨merged, by rw [Store.drafts_draft, AList.lookup_insert]⟩
  · intro trace s t a q run _ stepped notMine notClosed _ knows
    have same : (World.events t.world).drafts q = (World.events s.world).drafts q :=
      drafts_of_others (covers opening run.runs) stepped notMine notClosed
    intro loaded edited row edits
    rw [same]
    exact knows loaded edited row edits

/-! One successful send. -/

/-- The event has been sent; its mark is to come or is committed. -/
def Spent (trace : List (Executed language)) (s : State machine) (eventId : UUID) : Prop :=
  (∃ p proc, s.procs p = some proc ∧ (turns.phase p trace).sent = some (eventId, true)) ∨
    ∃ row, (World.events s.world).rows.lookup eventId = some row ∧ row.status = .published

def Once (trace : List (Executed language)) (s : State machine) : Prop :=
  ∀ eventId, sends eventId true trace = 0 ∨ sends eventId true trace = 1 ∧ Spent trace s eventId

theorem published_stays (opening : w.Opening) (run : machine.Traces Punctual (machine.initial w) trace s)
    (stepped : machine.step s a = some s') {row : OutboxEvent}
    (stored : (World.events s.world).rows.lookup eventId = some row)
    (published : row.status = .published) :
    ∃ row', (World.events s'.world).rows.lookup eventId = some row' ∧ row'.status = .published := by
  have covered := covers opening run.runs
  rcases stored_of_step covered stepped stored with same |
    ⟨q, choice, proc, row', rfl, found, commits, moved, moves⟩
  · exact ⟨row, same, published⟩
  · cases moves with
    | recovers now claimed processing => cases published.symm.trans processing
    | claims now due => cases published.symm.trans due.1
    | marks loaded edited w₁ earlier latest same marks =>
      have own : loaded.eventId = eventId := same.trans (covered.inv.keyed eventId row stored)
      obtain ⟨outcome, sent, _⟩ := marked_of_traces opening run found latest marks
      obtain ⟨row', stored', processing⟩ := held_of_sent opening run found (own ▸ sent)
      cases stored.symm.trans stored'
      cases published.symm.trans processing

theorem published_of_commit (opening : w.Opening) (run : machine.Traces Punctual (machine.initial w) trace s)
    (found : s.procs p = some proc) {next : Unit → Code ℕ} (rest : proc.rest = .call .commit next)
    (sent : (turns.phase p trace).sent = some (eventId, true)) :
    ∃ row, ((World.events s.world).commit p).rows.lookup eventId = some row ∧ row.status = .published := by
  rcases allows_of_traces run found rest with unsent | ⟨id, succeeded, loaded, edited, same, row, marked, written⟩
  · cases unsent.symm.trans sent
  · cases sent.symm.trans same
    obtain ⟨now, rfl⟩ := marked
    obtain ⟨_, named⟩ := (coherent_of_traces opening run p).loaded loaded row
    obtain ⟨own, _⟩ := Prod.mk.inj (Option.some.inj (sent.symm.trans named))
    have processing := loaded_processing opening run row
    rcases written with update | unchanged
    · obtain ⟨merged, drafted⟩ := drafts_of_traces opening run (Protocol.open_of_call found rest)
        loaded _ row update
      refine ⟨_, own ▸ Store.visible_of_drafted drafted, ?_⟩
      have changed : OutboxStatus.published ≠ loaded.status := by
        rw [processing]
        exact nofun
      exact if_neg changed
    · cases processing.symm.trans unchanged.1.symm

theorem Spent.step (opening : w.Opening) (run : machine.Traces Punctual (machine.initial w) trace s)
    (stepped : machine.step s a = some s') (spent : Spent trace s eventId) :
    Spent ((machine.executed s a).toList ++ trace) s' eventId := by
  rcases spent with ⟨p, proc, found, sent⟩ | ⟨row, stored, published⟩
  · obtain ⟨after, found', _⟩ := Machine.request_of_step stepped found
    by_cases mine : ∃ choice, a = .step p choice
    · obtain ⟨choice, rfl⟩ := mine
      obtain ⟨proc', stmt, next, result, w', found'', rest, executed, rfl⟩ := Machine.step_own stepped
      have own : turns.phase p ((machine.executed s (.step p choice)).toList ++ trace) =
          (turns.phase p trace).after stmt result :=
        Protocol.phase_of_own found'' rest executed
      have allows := allows_of_traces run found'' rest
      cases stmt with
      | now | selectPending | selectStale | update => exact .inl ⟨p, after, found', by rw [own]; exact sent⟩
      | get id =>
        obtain ⟨loaded, rfl, _⟩ := loads_processing opening run found'' rest choice executed
        exact .inl ⟨p, after, found', by rw [own]; exact sent⟩
      | commit =>
        cases executed
        exact .inr (published_of_commit opening run found'' rest sent)
      | send topic document => cases allows.1.symm.trans sent
    · refine .inl ⟨p, after, found', ?_⟩
      rw [Protocol.phase_of_other fun choice same => mine ⟨choice, same⟩]
      exact sent
  · exact .inr (published_stays opening run stepped stored published)

theorem Once.send (opening : w.Opening) (run : machine.Traces Punctual (machine.initial w) trace s)
    (once : Once trace s)
    (found : s.procs p = some proc) {topic : String} {document : Json} {next : Except String Unit → Code ℕ}
    (rest : proc.rest = .call (.send topic document) next) :
    ∃ row, document = message row ∧ sends row.eventId true trace = 0 ∧
      ((turns.phase p trace).send true).sent = some (row.eventId, true) := by
  obtain ⟨unsent, _, _, row, later, todo, rfl, t, claimed⟩ := allows_of_traces run found rest
  have records := records_of_traces run found
  have pending : row.eventId ∈ (turns.phase p trace).pending := by
    simp [Turn.pending, todo]
  have live : Live p row.eventId t s :=
    ⟨proc, found, records.claims ▸ claimed,
      records.marks ▸ (coherent_of_traces opening run p).unmarked _ pending⟩
  have possession := possession_of_traces opening run
  refine ⟨row, rfl, ?_, by simp only [Turn.send, todo, List.head?_cons, Option.map_some]⟩
  rcases once row.eventId with never | ⟨_, ⟨q, proc', found', sent⟩ | ⟨stored, same, published⟩⟩
  · exact never
  · obtain ⟨t', live'⟩ := live_of_sent opening run found' sent
    obtain rfl := possession.exclusive live live'
    cases unsent.symm.trans sent
  · obtain ⟨stored', same', processing, _⟩ := possession.held live
    cases same.symm.trans same'
    cases published.symm.trans processing

theorem send_of_outcome {stmt : Stmt} {result : stmt.Result}
    (succeeds : outcome eventId ⟨p, stmt, result⟩ = some true) :
    ∃ topic document, stmt = .send topic document ∧ HEq result (.ok () : Except String Unit) ∧
      document.item "event_id" = .ok (.str eventId.str) := by
  cases stmt with
  | send topic document =>
    simp only [outcome] at succeeds
    split_ifs at succeeds with named
    cases result with
    | ok => exact ⟨topic, document, rfl, HEq.rfl, named⟩
    | error error => cases succeeds
  | _ => cases succeeds

theorem Once.step (opening : w.Opening) (run : machine.Traces Punctual (machine.initial w) trace s)
    (once : Once trace s)
    (stepped : machine.step s a = some s') : Once ((machine.executed s a).toList ++ trace) s' := by
  intro eventId
  have quiet : sends eventId true ((machine.executed s a).toList ++ trace) = sends eventId true trace →
      sends eventId true ((machine.executed s a).toList ++ trace) = 0 ∨
        sends eventId true ((machine.executed s a).toList ++ trace) = 1 ∧
          Spent ((machine.executed s a).toList ++ trace) s' eventId := by
    intro same
    rw [same]
    exact (once eventId).imp id fun sent => ⟨sent.1, sent.2.step opening run stepped⟩
  rcases Machine.step_cases stepped with ⟨p, request, rfl, fresh, rfl⟩ |
    ⟨p, choice, proc, stmt, next, result, w', rfl, found, rest, executed, rfl⟩ |
    ⟨p, proc, rfl, found, running, rfl⟩ | ⟨p, proc, rfl, found, finished, rfl⟩ | ⟨e, w', rfl, ticked, rfl⟩
  · exact quiet rfl
  · rw [Machine.executed_step found rest executed] at quiet ⊢
    by_cases succeeds : outcome eventId ⟨p, stmt, result⟩ = some true
    · obtain ⟨topic, document, rfl, answered, named⟩ := send_of_outcome succeeds
      cases answered
      obtain ⟨row, rfl, fresh, sent⟩ := once.send opening run found rest
      simp only [message_event_id, Except.ok.injEq, Json.str.injEq] at named
      obtain rfl : row.eventId = eventId := UUID.str_injective named
      have count : sends row.eventId true (⟨p, .send topic (message row), .ok ()⟩ :: trace) = 1 := by
        rw [sends_cons, if_pos succeeds, fresh]
      exact .inr ⟨count, .inl ⟨p, _, Function.update_self .., (congrArg Turn.sent (if_pos rfl)).trans sent⟩⟩
    · apply quiet
      have count : sends eventId true (⟨p, stmt, result⟩ :: trace) = sends eventId true trace + 0 := by
        rw [sends_cons, if_neg succeeds]
      exact count
  · exact quiet rfl
  · exact quiet rfl
  · exact quiet rfl

theorem once_of_traces (opening : w.Opening)
    (traces : machine.Traces Punctual (machine.initial w) trace s) : Once trace s := by
  induction traces with
  | refl => exact fun _ => .inl rfl
  | tail run _ stepped ih => exact ih.step opening run stepped

/-- While the deadline is kept, an event is in the hands of one worker and is sent at most once. -/
theorem published_once (opening : w.Opening) (traces : machine.Traces Punctual (machine.initial w) trace s) :
    (∀ {p q eventId t t'}, Live p eventId t s → Live q eventId t' s → p = q) ∧ ∀ eventId,
    sends eventId true trace ≤ 1 := by
  refine ⟨(possession_of_traces opening traces).exclusive, fun eventId => ?_⟩
  rcases once_of_traces opening traces eventId with never | ⟨once, _⟩
  · omega
  · omega

def keepsDeadline (n : ℕ) (s : State machine) (_ : Action machine) : Bool :=
  (List.range n).all fun p => (s.procs p).all fun proc => (committed Stmt.claim proc.past).all fun claim =>
    decide (World.clock s.world < claim.2 + seconds claimTimeoutSeconds ∨ claim.1 ∈ committed Stmt.mark proc.past)

theorem punctual_of_check {n : ℕ} (s : State machine) (a : Action machine)
    (unused : ∀ q, n ≤ q → s.procs q = none) (checked : keepsDeadline n s a) : Punctual s a := by
  rintro p eventId t ⟨proc, found, claimed, unmarked⟩
  have early : p < n := by
    by_contra late
    cases (unused p (not_lt.1 late)).symm.trans found
  have own := List.all_eq_true.1 checked p (List.mem_range.2 early)
  rw [found] at own
  have kept := of_decide_eq_true (List.all_eq_true.1 own (eventId, t) claimed)
  exact kept.resolve_right unmarked

def findNothing (p : ℕ) : List (Action machine) :=
  [.start p (100 : ℕ), .step p .proceed, .step p (.order []), .step p .proceed, .step p .proceed,
    .step p (.order []), .step p .proceed]

/-- A second worker finds nothing while the first one has the event; the send fails, and
a third one sends it again. -/
theorem published_once_sample :
    ∃ (s : State machine) (trace trace' : List (Executed language)) (s' : State machine),
    Live 0 5 0 s ∧ (∀ q t', Live q 5 t' s → 0 = q) ∧ statusOf 5 s' = some .published ∧
    sends 5 true trace ≤ 1 ∧
      sends 5 true trace' ≤ 1 := by
  have executed : (machine.run (keepsDeadline 3) (machine.initial outbox)
      (claim 0 ++ findNothing 1)).bind (fun s =>
          (machine.run (keepsDeadline 3) s (fail 0 ++ [.tick (.elapse 2000000)] ++ claim 2 ++ succeed
            2)).map fun s' =>
            decide (record 0 s = some ([(5, 0)], []) ∧ statusOf 5 s' = some .published)) = some true := by
    decide +kernel
  obtain ⟨s, first, executed⟩ := Option.bind_eq_some_iff.1 executed
  obtain ⟨s', second, observed⟩ := Option.map_eq_some_iff.1 executed
  obtain ⟨recorded, published⟩ := of_decide_eq_true observed
  have starts : ∀ p request, .start p request ∈ (claim 0 ++ findNothing 1 : List (Action machine)) → p < 3 := by
    intro p request member
    simp [claim, findNothing] at member
    rcases member with same | same
    · cases same
      decide
    · cases same
      decide
  have starts' : ∀ p request, .start p request ∈
      (fail 0 ++ [.tick (.elapse 2000000)] ++ claim 2 ++ succeed 2 : List (Action machine)) → p < 3 := by
    intro p request member
    simp [claim, fail, succeed] at member
    cases member
    decide
  obtain ⟨runs, unused⟩ := Machine.Runs.of_run_below punctual_of_check starts (fun _ _ => rfl) first
  obtain ⟨runs', _⟩ := Machine.Runs.of_run_below punctual_of_check starts' unused second
  obtain ⟨trace, traces⟩ := Machine.Runs.traces runs
  obtain ⟨trace', traces'⟩ := Machine.Runs.traces (runs.trans runs')
  have live := live_of_record recorded
  obtain ⟨exclusive, once⟩ := published_once outbox_opening traces
  exact ⟨s, trace, trace', s', live, fun q t' other => exclusive live other, published, once 5,
    (published_once outbox_opening traces').2 5⟩

end LedgerFlow.Outbox
