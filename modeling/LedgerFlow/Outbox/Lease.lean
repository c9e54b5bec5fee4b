import LedgerFlow.Outbox.Sessions

/-! Whether a live claim is exclusive: it is, as long as no session that marks the event for another process leaves it
PENDING, to be retried before the claim has timed out. -/

namespace LedgerFlow.Outbox
open Concurrency

/-- The claim that an update makes: only `claim_pending_events` sets `claimed_at`. -/
def Stmt.claim : Stmt → Option (UUID × Timestamp)
  | .update loaded edited => edited.claimedAt.map (loaded.eventId, ·)
  | _ => none

/-- The event that an update marks: `mark_published` sets the status and `mark_failed` counts. -/
def Stmt.mark : Stmt → Option UUID
  | .update loaded edited =>
    if edited.status = .published ∨ edited.retryCount = loaded.retryCount + 1 then some loaded.eventId else none
  | _ => none

def committed {α : Type} (kind : Stmt → Option α) : List (Stmt × World) → List α
  | [] => []
  | (.commit, _) :: past => (sinceCommit past).filterMap (kind ·.1) ++ committed kind past
  | _ :: past => committed kind past

/-- `claim_pending_events` has given the event to process `p` at time `t`. -/
def Claims (p : ℕ) (eventId : UUID) (t : Timestamp) (s : State machine) : Prop :=
  ∃ proc, s.procs p = some proc ∧ (eventId, t) ∈ committed Stmt.claim proc.past

/-- The process has the claim, and has not committed a mark for the event yet. -/
def Live (p : ℕ) (eventId : UUID) (t : Timestamp) (s : State machine) : Prop :=
  ∃ proc, s.procs p = some proc ∧ (eventId, t) ∈ committed Stmt.claim proc.past ∧
    eventId ∉ committed Stmt.mark proc.past

def CommitsMark (s : State machine) (a : Action machine) (p : ℕ) (loaded edited : OutboxEvent) : Prop :=
  ∃ choice proc w earlier, a = .step p choice ∧ s.procs p = some proc ∧ proc.rest.head = some .commit ∧
    proc.past = (.update loaded edited, w) :: earlier ∧ Marks loaded edited

def Rests (t : Timestamp) (row : OutboxEvent) : Prop :=
  row.status = .pending → ∃ retry, row.nextRetryAt = some retry ∧ t + seconds claimTimeoutSeconds ≤ retry

/-- A process that is to commit a mark has not left the event PENDING, to be retried
before the live claim of another process on it times out. -/
def KeepsClaims (s : State machine) (a : Action machine) : Prop :=
  ∀ p q loaded edited row t, CommitsMark s a q loaded edited → p ≠ q → Live p loaded.eventId t s →
    s.world.events.visible q loaded.eventId = some row →
      t + seconds claimTimeoutSeconds ≤ s.world.clock ∨ Rests t row

variable {w w' : World} {s s' : State machine} {p q : ℕ} {eventId : UUID} {t t' : Timestamp}
  {past : List (Stmt × World)} {stmt : Stmt}

theorem committed_cons {α : Type} {kind : Stmt → Option α} {x : α} (member : x ∈ committed kind past) :
    x ∈ committed kind ((stmt, w) :: past) := by
  cases stmt with
  | commit => exact List.mem_append_right _ member
  | _ => exact member

theorem committed_cases {α : Type} {kind : Stmt → Option α} {x : α}
    (member : x ∈ committed kind ((stmt, w) :: past)) :
    x ∈ committed kind past ∨ stmt = .commit ∧ ∃ executed ∈ sinceCommit past, kind executed.1 = some x := by
  cases stmt with
  | commit => exact (List.mem_append.1 member).symm.imp id fun made => ⟨rfl, List.mem_filterMap.1 made⟩
  | _ => exact .inl member

theorem claim_cases (stmt : Stmt) (made : stmt.claim = some (eventId, t)) :
    ∃ loaded edited, stmt = .update loaded edited ∧ loaded.eventId = eventId ∧ edited.claimedAt = some t := by
  cases stmt with
  | update loaded edited =>
    obtain ⟨_, since, equal⟩ := Option.map_eq_some_iff.1 made
    cases equal
    exact ⟨loaded, edited, rfl, rfl, since⟩
  | _ => cases made

theorem Marks.mark {loaded edited : OutboxEvent} (marks : Marks loaded edited) :
    (Stmt.update loaded edited).mark = some loaded.eventId := by
  rcases marks with now | fails
  · rfl
  · cases fails <;> exact if_pos (.inr rfl)

/-- The event cannot be claimed before `t` plus the claim timeout: it is not due, and
recovery does not take it for stale. -/
def Leased (eventId : UUID) (t : Timestamp) (w : World) : Prop :=
  t + seconds claimTimeoutSeconds ≤ w.clock ∨
  ∃ row, w.events.rows.lookup eventId = some row ∧ Rests t row ∧ ∀ since ∈ row.claimedAt, since = t

theorem Moves.leased {clock : Timestamp} {row row' : OutboxEvent} (moves : Moves past clock row row')
    (rests : Rests t row) (since : ∀ since ∈ row.claimedAt, since = t)
    (kept : ∀ loaded edited w earlier, past = (.update loaded edited, w) :: earlier →
      loaded.eventId = row.eventId →
      Marks loaded edited → t + seconds claimTimeoutSeconds ≤ clock ∨ Rests t row') :
    t + seconds claimTimeoutSeconds ≤ clock ∨ Rests t row' ∧ ∀ since ∈ row'.claimedAt, since = t := by
  cases moves with
  | recovers now claimed processing claimedAt stale before =>
    obtain rfl := since claimed claimedAt
    exact .inl (stale.trans before)
  | claims now due before =>
    obtain ⟨retry, waits, later⟩ := rests due.1
    exact .inl (later.trans ((due.2 retry waits).trans before))
  | marks loaded edited w earlier updated same marks =>
    refine (kept loaded edited w earlier updated same marks).imp id fun rests' =>
      ⟨rests', fun claimed found => ?_⟩
    simp only [OutboxEvent.merge, OutboxEvent.column, marks.claimedAt] at found
    split_ifs at found
    · exact since claimed found
    · cases found

theorem Guar.leased {before : Proc machine} (guar : Guar q before w w') (clock : w.clock ≤ w'.clock)
    (valid : w.Valid) (leased : Leased eventId t w)
    (kept : ∀ loaded edited w₁ earlier row, before.rest.head = some .commit →
      before.past = (.update loaded edited, w₁) :: earlier →
      loaded.eventId = eventId → Marks loaded edited → w'.events.rows.lookup eventId = some row →
      t + seconds claimTimeoutSeconds ≤ w.clock ∨ Rests t row) : Leased eventId t w' := by
  rcases leased with expired | ⟨row, stored, rests, since⟩
  · exact .inl (expired.trans clock)
  · by_cases commits : before.rest.head = some .commit
    · rcases guar.moves eventId with same | ⟨row₁, row', stored', moved, moves⟩
      · exact .inr ⟨row, same.trans stored, rests, since⟩
      · cases stored.symm.trans stored'
        have own := valid.keyed eventId row stored
        rcases moves.leased rests since (fun loaded edited w₁ earlier updated same marks =>
          kept loaded edited w₁ earlier row' commits updated (same.trans own) marks moved) with expired | leased'
        · exact .inl (expired.trans clock)
        · exact .inr ⟨row', moved, leased'⟩
    · exact .inr ⟨row, (congrArg (AList.lookup eventId) (guar.quiet commits)).trans stored, rests, since⟩

def LeasesHeld (s : State machine) : Prop := ∀ p eventId t, Live p eventId t s → Leased eventId t s.world

theorem LeasesHeld.step {a : Action machine} (covered : contract.Covers Unused s) (held : LeasesHeld s)
    (keeps : KeepsClaims s a) (stepped : machine.step s a = some s') : LeasesHeld s' := by
  rcases Machine.step_cases stepped with ⟨q, request, rfl, fresh, rfl⟩ |
    ⟨q, choice, before, stmt, next, result, w', rfl, found, rest, executed, rfl⟩ |
    ⟨q, before, rfl, found, running, rfl⟩ | ⟨q, before, rfl, found, finished, rfl⟩ |
      ⟨e, w', rfl, ticked, rfl⟩
  · intro p eventId t ⟨proc, found, claimed, unmarked⟩
    rcases Machine.found_update found with ⟨rfl, rfl⟩ | ⟨_, old⟩
    · cases claimed
    · exact held p eventId t ⟨proc, old, claimed, unmarked⟩
  · intro p eventId t ⟨proc, found', claimed, unmarked⟩
    have guar := (sound.guar_of_step covered found rest executed).1
    have clock : s.world.clock ≤ w'.clock := (guar.others (q + 1) (by omega)).clock
    rcases Machine.found_update found' with ⟨rfl, rfl⟩ | ⟨other, old⟩
    · rcases committed_cases claimed with earlier | ⟨rfl, ⟨stmt, w₁⟩, member, made⟩
      · refine guar.leased clock covered.inv
          (held p eventId t ⟨before, found, earlier, fun marked => unmarked (committed_cons marked)⟩)
          fun loaded edited w₁ past row commits updated own marks _ => absurd ?_ unmarked
        -- the mark of the owner ends its claim
        rw [rest] at commits
        cases commits
        exact List.mem_append_left _ (List.mem_filterMap.2
          ⟨(.update loaded edited, w₁), by rw [updated]; exact List.mem_cons_self,
          own ▸ marks.mark⟩)
      · obtain ⟨loaded, edited, rfl, rfl, since⟩ := claim_cases stmt made
        obtain ⟨_, _, _, stored⟩ := guar.claims loaded edited w₁ t (by rw [rest]; rfl) member since
        exact .inr ⟨_, stored, nofun, fun _ found => (Option.some.inj found).symm⟩
    · have live : Live p eventId t s := ⟨proc, old, claimed, unmarked⟩
      refine guar.leased clock covered.inv (held p eventId t live)
        fun loaded edited w₁ past row commits updated own marks stored => ?_
      rw [rest] at commits
      cases commits
      cases executed
      exact keeps p q loaded edited row t ⟨choice, before, w₁, past, rfl,
        found, by rw [rest]; rfl, updated, marks⟩ other (own ▸ live) (own ▸ stored)
  · intro p eventId t ⟨proc, found', claimed, unmarked⟩
    rcases Machine.found_update found' with ⟨rfl, rfl⟩ | ⟨_, old⟩
    · exact held p eventId t ⟨before, found, claimed, unmarked⟩
    · exact held p eventId t ⟨proc, old, claimed, unmarked⟩
  · exact held
  · intro p eventId t live
    rcases held p eventId t live with expired | ⟨row, stored, leased⟩
    · exact .inl (expired.trans ((covered.inv.tick ticked).2 p).clock)
    · have kept : w'.events.rows.lookup eventId = some row := by
        rcases stored_of_step covered stepped stored with same | ⟨_, _, _, _, absurd, _⟩
        · exact same
        · cases absurd
      exact .inr ⟨row, kept, leased⟩

theorem due_of_claims {a : Action machine} (covered : contract.Covers Unused s) (stepped : machine.step s a = some s')
    (before : ¬Claims q eventId t s) (after : Claims q eventId t s') :
    ∃ row now, s.world.events.rows.lookup eventId = some row ∧ Due now row ∧ now ≤ s.world.clock := by
  obtain ⟨proc, found, claimed⟩ := after
  rcases Machine.step_cases stepped with ⟨r, request, rfl, fresh, rfl⟩ |
    ⟨r, choice, proc', stmt, next, result, w', rfl, found', rest, executed, rfl⟩ |
    ⟨r, proc', rfl, found', running, rfl⟩ | ⟨r, proc', rfl, found', finished, rfl⟩ |
      ⟨e, w', rfl, ticked, rfl⟩
  · rcases Machine.found_update found with ⟨rfl, rfl⟩ | ⟨_, old⟩
    · cases claimed
    · exact absurd ⟨proc, old, claimed⟩ before
  · rcases Machine.found_update found with ⟨rfl, rfl⟩ | ⟨_, old⟩
    · rcases committed_cases claimed with earlier | ⟨rfl, ⟨stmt, w₁⟩, member, made⟩
      · exact absurd ⟨proc', found', earlier⟩ before
      · obtain ⟨loaded, edited, rfl, rfl, since⟩ := claim_cases stmt made
        have guar := (sound.guar_of_step covered found' rest executed).1
        obtain ⟨stored, due, now, _⟩ := guar.claims loaded edited w₁ t (by rw [rest]; rfl) member since
        exact ⟨loaded, t, stored, due, now⟩
    · exact absurd ⟨proc, old, claimed⟩ before
  · rcases Machine.found_update found with ⟨rfl, rfl⟩ | ⟨_, old⟩
    · exact absurd ⟨proc', found', claimed⟩ before
    · exact absurd ⟨proc, old, claimed⟩ before
  · exact absurd ⟨proc, found, claimed⟩ before
  · exact absurd ⟨proc, found, claimed⟩ before

def record (p : ℕ) (s : State machine) : Option (List (UUID × Timestamp) × List UUID) :=
  (s.procs p).map fun proc => (committed Stmt.claim proc.past, committed Stmt.mark proc.past)

theorem live_of_record (recorded : record p s = some ([(eventId, t)], [])) : Live p eventId t s := by
  obtain ⟨proc, found, equal⟩ := Option.map_eq_some_iff.1 recorded
  simp only [Prod.mk.injEq] at equal
  exact ⟨proc, found, by simp [equal.1], by simp [equal.2]⟩

end LedgerFlow.Outbox
