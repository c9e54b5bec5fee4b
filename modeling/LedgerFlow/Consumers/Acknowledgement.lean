import LedgerFlow.Concurrency.Trace
import LedgerFlow.Consumers.Projection

/-! When `process_message` acknowledges: the offset of a message is committed, at most once, after its event has been
registered for good, and a call that returns has committed it. -/

namespace LedgerFlow.Consumers
open Concurrency

structure Handling where
  /-- The event that it has registered in its open transaction. -/
  drafted : Option UUID
  /-- An event that it knows to be registered for good. -/
  settled : Option UUID
  acknowledged : Bool

namespace Handling

def after (φ : Handling) : (stmt : Stmt) → stmt.Result → Handling
  | .insertProcessed eventId _ _, .ok () => { φ with drafted := some eventId }
  | .insertProcessed eventId _ _, .error .integrityError => { φ with settled := some eventId }
  | .commit, _ => { φ with settled := φ.drafted <|> φ.settled, drafted := none }
  | .rollback, _ => { φ with drafted := none }
  | .commitOffset _ _ _, .ok () => { φ with acknowledged := true }
  | _, _ => φ

def Allows (message : Message) (φ : Handling) : Stmt → Prop
  | .insertProcessed _ eventType _ => φ.drafted = none ∧ ∃ text, eventType = .str text
  | .commitOffset topic partition offset =>
    topic = message.topic ∧ partition = message.partition ∧ offset = message.offset + 1 ∧
      φ.acknowledged = false ∧ ∃ eventId, eventIdOf message.value = .ok eventId ∧ φ.settled = some eventId
  | _ => True

end Handling

def handling : Protocol machine Handling := ⟨⟨none, none, false⟩, Handling.after, Handling.Allows⟩

/-- A message that the outbox workers have published. -/
def FromWorker (message : Message) : Prop := ∃ event, message.value = Outbox.message event

abbrev Handles (message : Message) {α : Type} (φ : Handling) (code : Code α)
    (Q : Handling → α → Prop) : Prop :=
  handling.Follows message Q (fun _ _ => True) φ code

namespace Handles
variable {message : Message} {φ : Handling}

theorem checked {α : Type} {Q : Handling → α → Prop} {result : Except PyError α}
    (holds : ∀ value, result = .ok value → Q φ value) : Handles message φ (Consumers.checked result) Q := by
  cases result with
  | ok value => exact holds value rfl
  | error error => trivial

theorem rollback : Handles message φ Consumers.rollback fun ψ _ => ψ = { φ with drafted := none } :=
  ⟨trivial, fun _ _ => rfl⟩

theorem commit : Handles message φ Consumers.commit fun ψ _ =>
    ψ = { φ with settled := φ.drafted <|> φ.settled, drafted := none } :=
  ⟨trivial, fun _ _ => rfl⟩

theorem upsert (accountId : UUID) (delta : Decimal.Number) (updatedAt : Timestamp) :
    Handles message φ (.call (.upsert accountId delta updatedAt) Consumers.checked) fun ψ _ => ψ = φ := by
  refine ⟨trivial, fun result _ => ?_⟩
  have same : handling.after φ (.upsert accountId delta updatedAt) result = φ := rfl
  rw [same]
  exact checked fun _ _ => rfl

theorem applyDelta (accountId : UUID) (delta : Decimal.Number) :
    Handles message φ (Consumers.applyDelta accountId delta) fun ψ _ => ψ = φ :=
  ⟨trivial, fun now _ => upsert accountId delta now⟩

theorem applyAll (changes : List (UUID × Decimal.Number)) :
    Handles message φ (Consumers.applyAll changes) fun ψ _ => ψ = φ := by
  induction changes with
  | nil => exact rfl
  | cons change changes ih =>
    apply Protocol.Follows.bind (applyDelta change.1 change.2)
    rintro ψ _ rfl
    exact ih

theorem applyBalanceProjection (event : Json) :
    Handles message φ (Consumers.applyBalanceProjection event) fun ψ _ => ψ = φ := by
  rw [applyBalanceProjection_eq]
  apply Protocol.Follows.bind (checked (Q := fun ψ _ => ψ = φ) fun _ _ => rfl)
  rintro ψ changes rfl
  exact applyAll changes

theorem markEventProcessed (eventId : UUID) (text : String) (undrafted : φ.drafted = none) :
    Handles message φ (Consumers.markEventProcessed eventId (.str text)) fun ψ registered =>
      ψ.acknowledged = φ.acknowledged ∧
        if registered then ψ.drafted = some eventId else ψ.settled = some eventId := by
  refine ⟨trivial, fun processedAt _ => ⟨⟨undrafted, text, rfl⟩, fun flushed _ => ?_⟩⟩
  cases flushed with
  | ok => exact ⟨rfl, rfl⟩
  | error error =>
    cases error
    case integrityError => exact ⟨trivial, fun _ _ => ⟨rfl, rfl⟩⟩
    all_goals trivial

theorem commitMessageOffset {eventId : UUID} (same : eventIdOf message.value = .ok eventId)
    (settled : φ.settled = some eventId) (fresh : φ.acknowledged = false) :
    Handles message φ (Consumers.commitMessageOffset message) fun ψ _ => ψ.acknowledged = true := by
  refine ⟨⟨rfl, rfl, rfl, fresh, eventId, same, settled⟩, fun taken _ => ?_⟩
  cases taken with
  | ok => exact rfl
  | error error => trivial

theorem givesUp {α : Type} {Q : Handling → α → Prop} (error : PyError) :
    Handles message φ (do Consumers.rollback; .raise error) Q :=
  ⟨trivial, fun _ _ => trivial⟩

/-- The message is acknowledged, or its event is registered and it is still to be acknowledged. -/
def Processed (message : Message) (ψ : Handling) (unacknowledged : Bool) : Prop :=
  if unacknowledged then
    ψ.acknowledged = false ∧ ∃ eventId, eventIdOf message.value = .ok eventId ∧ ψ.settled = some eventId
  else ψ.acknowledged = true

theorem processEvent {eventId : UUID} (same : eventIdOf message.value = .ok eventId) (text : String)
    (undrafted : φ.drafted = none) (fresh : φ.acknowledged = false) :
    Handles message φ (Consumers.processEvent message eventId (.str text)) (Processed message) := by
  apply Protocol.Follows.bind (markEventProcessed eventId text undrafted)
  rintro ψ (_ | _) ⟨kept, registered⟩
  · apply Protocol.Follows.bind rollback
    rintro _ _ rfl
    have acknowledges : Handles message { ψ with drafted := none } _ _ :=
      commitMessageOffset same registered (kept.trans fresh)
    apply Protocol.Follows.bind acknowledges
    exact fun _ _ acknowledged => acknowledged
  · apply Protocol.Follows.bind (applyBalanceProjection message.value)
    rintro χ _ rfl
    apply Protocol.Follows.bind commit
    rintro _ _ rfl
    refine ⟨kept.trans fresh, eventId, same, ?_⟩
    change (χ.drafted <|> χ.settled) = some eventId
    rw [show χ.drafted = some eventId from registered]
    rfl

theorem processMessage (published : FromWorker message) :
    Handles message handling.start (Consumers.processMessage message) fun ψ _ => ψ.acknowledged = true := by
  obtain ⟨event, document⟩ := published
  have same : eventIdOf message.value = .ok event.eventId := document ▸ eventIdOf_message event
  unfold Consumers.processMessage
  rw [document, Outbox.message_event_id, Outbox.message_event_type]
  have identified : (Json.str event.eventId.str).uuid = .ok event.eventId := Json.uuid_str event.eventId
  simp only [Consumers.checked, Prog.ret_bind, identified]
  have tried : Handles message handling.start _ _ := processEvent same event.eventType rfl rfl
  apply Protocol.Follows.bind (tried.attempt fun φ error _ => givesUp error)
  rintro ψ (_ | _) processed
  · exact processed
  · obtain ⟨fresh, eventId, same, settled⟩ := processed
    exact commitMessageOffset same settled fresh

end Handles

/-! What a call knows. -/

/-- The registration of the phase is drafted by session `p`, which has drafted nothing else, or is committed. -/
structure Knows (p : ℕ) (φ : Handling) (w : World) : Prop where
  drafted : ∀ eventId, φ.drafted = some eventId → eventId ∈ w.processed.drafts p
  undrafted : φ.drafted = none → w.processed.drafts p = ∅
  settled : ∀ eventId, φ.settled = some eventId → eventId ∈ registered w

variable {p : ℕ} {φ : Handling} {w w' : World}

theorem mem_registered {eventId : UUID} : eventId ∈ registered w ↔ eventId ∈ w.processed.rows := by
  unfold registered
  rw [List.mem_toFinset]
  rfl

theorem registered_commit : registered w ⊆ registered { w with
    processed := w.processed.commit p, projections := w.projections.commit p } := by
  intro eventId member
  rw [mem_registered] at member ⊢
  exact AList.mem_union.2 (.inr member)

theorem exec_cases {stmt : Stmt} {choice : Choice} {result : stmt.Result}
    (executed : exec p stmt choice w = some (result, w')) :
    registered w ⊆ registered w' ∧ (∀ q, q ≠ p → w'.processed.drafts q = w.processed.drafts q) ∧
      (w'.offsets = w.offsets ∧ (φ.after stmt result).acknowledged = φ.acknowledged ∨
        ∃ topic partition offset, stmt = .commitOffset topic partition offset ∧
        (φ.after stmt result).acknowledged = true ∧
          w'.offsets = Function.update w.offsets (topic, partition) (some offset)) := by
  have same := Finset.Subset.refl (registered w)
  cases stmt with
  | now =>
    cases executed
    exact ⟨same, fun _ _ => rfl, .inl ⟨rfl, rfl⟩⟩
  | insertProcessed eventId eventType processedAt =>
    rcases exec_insertProcessed executed with ⟨⟨error, rfl, _⟩, rfl⟩ | ⟨row, rfl, _, _, rfl⟩
    · exact ⟨same, fun _ _ => rfl, .inl ⟨rfl, by cases error <;> rfl⟩⟩
    · exact ⟨same, fun q other => Function.update_of_ne other .., .inl ⟨rfl, rfl⟩⟩
  | upsert accountId delta updatedAt =>
    rcases exec_upsert executed with ⟨_, rfl⟩ | ⟨row, _, _, _, rfl⟩
    · exact ⟨same, fun _ _ => rfl, .inl ⟨rfl, rfl⟩⟩
    · exact ⟨same, fun _ _ => rfl, .inl ⟨rfl, rfl⟩⟩
  | commit =>
    cases executed
    exact ⟨registered_commit, fun q other => Function.update_of_ne other .., .inl ⟨rfl, rfl⟩⟩
  | rollback =>
    cases executed
    exact ⟨same, fun q other => Function.update_of_ne other .., .inl ⟨rfl, rfl⟩⟩
  | commitOffset topic partition offset =>
    cases choice with
    | proceed =>
      cases executed
      exact ⟨same, fun _ _ => rfl, .inr ⟨topic, partition, offset, rfl, rfl, rfl⟩⟩
    | kafkaDown error =>
      cases executed
      exact ⟨same, fun _ _ => rfl, .inl ⟨rfl, rfl⟩⟩

theorem Knows.others (knows : Knows p φ w) (drafts : w'.processed.drafts p = w.processed.drafts p)
    (kept : registered w ⊆ registered w') : Knows p φ w' where
  drafted eventId drafted := drafts ▸ knows.drafted eventId drafted
  undrafted undrafted := drafts.trans (knows.undrafted undrafted)
  settled eventId settled := kept (knows.settled eventId settled)

theorem Knows.own {message : Message} {stmt : Stmt} {choice : Choice} {result : stmt.Result} (knows : Knows p φ w)
    (allows : φ.Allows message stmt) (executed : exec p stmt choice w = some (result, w')) :
    Knows p (φ.after stmt result) w' := by
  cases stmt with
  | now =>
    cases executed
    exact knows
  | insertProcessed eventId eventType processedAt =>
    obtain ⟨undrafted, text, rfl⟩ := allows
    have empty := knows.undrafted undrafted
    rcases exec_insertProcessed executed with ⟨⟨error, rfl, taken⟩, rfl⟩ | ⟨row, rfl, _, _, rfl⟩
    · cases error
      case integrityError =>
        refine ⟨knows.drafted, knows.undrafted, fun id same => ?_⟩
        cases same
        have used := (taken rfl).resolve_right (fun absurd => by cases absurd)
        rw [Store.visible_of_drafts empty] at used
        exact mem_registered.2 (AList.lookup_isSome.1 used)
      all_goals exact knows
    · refine ⟨fun id same => ?_, fun absurd => (Option.some_ne_none _ absurd).elim, knows.settled⟩
      cases same
      change eventId ∈ (w.processed.draft p eventId _).drafts p
      rw [Store.drafts_draft]
      exact (AList.mem_insert _).2 (.inl rfl)
  | upsert accountId delta updatedAt =>
    rcases exec_upsert executed with ⟨⟨error, rfl⟩, rfl⟩ | ⟨row, rfl, _, _, rfl⟩
    · exact knows
    · exact ⟨knows.drafted, knows.undrafted, knows.settled⟩
  | commit =>
    cases executed
    refine ⟨fun _ absurd => (Option.some_ne_none _ absurd.symm).elim, fun _ => Store.drafts_commit,
      fun id settled => ?_⟩
    rcases (Option.orElse_eq_some ..).1 settled with drafted | ⟨_, settled⟩
    · exact mem_registered.2 (AList.mem_union.2 (.inl (knows.drafted id drafted)))
    · exact registered_commit (knows.settled id settled)
  | rollback =>
    cases executed
    exact ⟨fun _ absurd => (Option.some_ne_none _ absurd.symm).elim, fun _ => Store.drafts_finish, knows.settled⟩
  | commitOffset topic partition offset =>
    cases choice with
    | proceed =>
      cases executed
      exact ⟨knows.drafted, knows.undrafted, knows.settled⟩
    | kafkaDown error =>
      cases executed
      exact knows

/-! Whole runs. -/

def Reading (_ : State machine) (a : Action machine) : Prop := ∀ p message, a = .start p message →
    FromWorker message

variable {s : State machine} {trace : List (Executed language)}

theorem handles_of_traces (traces : machine.Traces Reading (machine.initial w) trace s) {proc : Proc machine}
    (found : s.procs p = some proc) :
    Handles proc.request (handling.phase p trace) proc.rest fun ψ _ => ψ.acknowledged = true :=
  Protocol.follows_of_traces (Q := fun _ (ψ : Handling) _ => ψ.acknowledged = true)
    (fun _ p message reading => reading p message rfl)
    (fun _ published => Handles.processMessage published) (fun _ => trivial) traces found

theorem knows_of_traces (opening : w.Opening) (traces : machine.Traces Reading (machine.initial w) trace s)
    (running : Protocol.Open s p) : Knows p (handling.phase p trace) s.world := by
  apply Protocol.knows_of_traces _ _ _ traces running
  · intro p
    exact ⟨fun _ absurd => (Option.some_ne_none _ absurd.symm).elim, fun _ => opening.processed.drafts p,
      fun _ absurd => (Option.some_ne_none _ absurd.symm).elim⟩
  · intro trace s p proc choice stmt next result w' traces _ found rest executed knows
    have follows := handles_of_traces traces found
    rw [rest] at follows
    exact knows.own follows.1 executed
  · intro trace s t a q _ _ stepped notMine notClosed _ knows
    rcases Machine.step_cases stepped with ⟨p, request, rfl, fresh, rfl⟩ |
      ⟨p, choice, proc, stmt, next, result, w', rfl, found, rest, executed, rfl⟩ |
      ⟨p, proc, rfl, _, _, rfl⟩ | ⟨p, proc, rfl, _, _, rfl⟩ | ⟨e, w', rfl, ticked, rfl⟩
    · exact knows
    · have other : q ≠ p := fun same => notMine choice (by rw [same])
      obtain ⟨kept, drafts, _⟩ := exec_cases (φ := handling.phase p []) executed
      exact knows.others (drafts q other) kept
    · exact knows
    · have other : q ≠ p := fun same => notClosed (by rw [same])
      exact knows.others (Function.update_of_ne other ..) (Finset.Subset.refl _)
    · cases ticked
      exact ⟨knows.drafted, knows.undrafted, knows.settled⟩

end LedgerFlow.Consumers
