import LedgerFlow.Consumers.HeadOfLine
import LedgerFlow.Pipeline.Projection

/-! The whole system with the partitions of the topic in their order: the workers append to them, and one
consumer at a time reads on from the committed offsets. It refines the system whose consumers are handed any
message of the topic. -/

namespace LedgerFlow.Pipeline
open Concurrency Ledger

structure Stream (env : Deployment) where
  ledger : Concurrency.State (Ledger.machine env)
  workers : Concurrency.State Outbox.machine
  reader : Consumers.Reader

namespace Stream

inductive Action (env : Deployment) where
  | ledger (a : Concurrency.Action (Ledger.machine env))
  | workers (a : Concurrency.Action Outbox.machine) (partition : ℕ)
  | reader (a : Consumers.Reader.Action)

variable {env : Deployment}

/-- The messages of the ledger topic that are in the log of `w'` and not yet in that of `w`. -/
def sent (w w' : Outbox.World) : List Json :=
  ((w'.log.drop w.log.length).filter (·.1 = Outbox.kafkaLedgerTopic)).map (·.2)

def append (partition : ℕ) (values : List Json) (r : Consumers.Reader) : Consumers.Reader :=
  { r with log := Function.update r.log partition (r.log partition ++ values) }

def isPublish : Consumers.Reader.Action → Bool
  | .publish _ _ => true
  | _ => false

def step (s : Stream env) : Action env → Option (Stream env)
  | .ledger a =>
    match (Ledger.machine env).step s.ledger a with
    | none => none
    | some t =>
      let events := (t.world : Ledger.World).db.events.drop (s.ledger.world : Ledger.World).db.events.length
      some { s with ledger := t, workers := post events s.workers }
  | .workers a partition =>
    if Outbox.isOwn a then
      match Outbox.machine.step s.workers a with
      | none => none
      | some t => some { s with workers := t, reader := append partition (sent s.workers.world t.world) s.reader }
    else none
  | .reader a =>
    if isPublish a then none
    else
      match s.reader.step a with
      | none => none
      | some r => some { s with reader := r }

abbrev Runs : Stream env → Stream env → Prop := Relation.ReflTransGen fun s t => ∃ a, step s a = some t

def unread (c : Consumers.World) : Consumers.Reader :=
  { calls := Consumers.machine.initial c, log := fun _ => [], position := fun _ => 0, current := none }

def initial (env : Deployment) (w : Ledger.World) (o : Outbox.World) (c : Consumers.World) : Stream env :=
  ⟨(Ledger.machine env).initial w, Outbox.machine.initial o, unread c⟩

/-- The order of the messages and the offsets are forgotten. -/
def forget (s : Stream env) : State env := ⟨s.ledger, s.workers, s.reader.calls⟩

def Announces (event : Outbox.OutboxEvent) : Prop := event.eventType = TransactionType.transfer.eventType

variable {w : Ledger.World} {o : Outbox.World} {c : Consumers.World} {s t : Stream env} {a : Action env}

theorem step_cases (stepped : step s a = some t) :
    (∃ b u, (Ledger.machine env).step s.ledger b = some u ∧ t = { s with
      ledger := u
      workers := post ((u.world : Ledger.World).db.events.drop
          (s.ledger.world : Ledger.World).db.events.length) s.workers }) ∨
    (∃ b partition u, Outbox.isOwn b ∧ Outbox.machine.step s.workers b = some u ∧
      t = { s with workers := u, reader := append partition (sent s.workers.world u.world) s.reader }) ∨
    ∃ b r, isPublish b = false ∧ s.reader.step b = some r ∧ t = { s with reader := r } := by
  cases a with
  | ledger b =>
    cases moved : (Ledger.machine env).step s.ledger b with
    | none => simp [step, moved] at stepped
    | some u => exact .inl ⟨b, u, moved, by simpa [step, moved] using stepped.symm⟩
  | workers b partition =>
    by_cases own : Outbox.isOwn b
    · cases moved : Outbox.machine.step s.workers b with
      | none => simp [step, own, moved] at stepped
      | some u => exact .inr (.inl ⟨b, partition, u, own, moved, by simpa [step, own, moved] using stepped.symm⟩)
    · simp [step, own] at stepped
  | reader b =>
    by_cases publishes : isPublish b
    · simp [step, publishes] at stepped
    · cases moved : s.reader.step b with
      | none => simp [step, publishes, moved] at stepped
      | some r =>
        exact .inr (.inr ⟨b, r, Bool.eq_false_of_not_eq_true publishes, moved, by
          simpa [step, publishes, moved] using stepped.symm⟩)

theorem log_of_exec {p : ℕ} {stmt : Outbox.Stmt} {choice : Outbox.Choice} {u v : Outbox.World}
    {result : stmt.Result} (executed : Outbox.exec p stmt choice u = some (result, v)) : u.log <+: v.log := by
  by_cases sends : ∃ topic document, stmt = .send topic document
  · obtain ⟨topic, document, rfl⟩ := sends
    rcases Outbox.send_cases executed with ⟨_, rfl⟩ | ⟨error, delivered, _, rfl⟩
    · exact List.prefix_append _ _
    · split_ifs
      · exact List.prefix_append _ _
      · exact List.prefix_refl _
  · have same : v.log = u.log := Outbox.log_of_exec
      (fun topic document same => sends ⟨topic, document, same⟩) executed
    rw [same]

theorem log_of_step {u v : Concurrency.State Outbox.machine} {b : Concurrency.Action Outbox.machine}
    (stepped : Outbox.machine.step u b = some v) : (u.world : Outbox.World).log <+: (v.world : Outbox.World).log := by
  rcases Machine.step_cases stepped with ⟨p, request, rfl, fresh, rfl⟩ |
    ⟨p, choice, proc, stmt, next, result, w', rfl, found, rest, executed, rfl⟩ |
    ⟨p, proc, rfl, found, running, rfl⟩ | ⟨p, proc, rfl, found, finished, rfl⟩ | ⟨e, w', rfl, ticked, rfl⟩
  · exact List.prefix_refl _
  · exact log_of_exec executed
  · exact List.prefix_refl _
  · exact List.prefix_refl _
  · cases e with
    | elapse microseconds =>
      cases ticked
      exact List.prefix_refl _
    | post eventId aggregateId eventType payload createdAt =>
      simp only [Outbox.machine, Outbox.World.tick] at ticked
      split_ifs at ticked
      cases ticked
      exact List.prefix_refl _

theorem mem_sent {u v : Outbox.World} {value : Json} (member : value ∈ sent u v) :
    (Outbox.kafkaLedgerTopic, value) ∈ v.log := by
  obtain ⟨message, kept, rfl⟩ := List.mem_map.1 member
  obtain ⟨new, topic⟩ := List.mem_filter.1 kept
  rw [← of_decide_eq_true topic]
  exact List.mem_of_mem_drop new

theorem mem_append {r : Consumers.Reader} {partition k : ℕ} {values : List Json} {value : Json}
    (member : value ∈ (append partition values r).log k) : value ∈ r.log k ∨ value ∈ values := by
  by_cases same : k = partition
  · subst same
    have member : value ∈ Function.update r.log k (r.log k ++ values) k := member
    rw [Function.update_self] at member
    exact List.mem_append.1 member
  · have member : value ∈ Function.update r.log partition (r.log partition ++ values) k := member
    rw [Function.update_of_ne same] at member
    exact .inl member

theorem runs_append (partition : ℕ) {values : List Json}
    (messages : ∀ value ∈ values, ∃ event, value = Outbox.message event)
    (r : Consumers.Reader) : Consumers.Reader.Runs r (append partition values r) := by
  induction values generalizing r with
  | nil =>
    have same : append partition [] r = r := by
      unfold append
      rw [List.append_nil, Function.update_eq_self]
    rw [same]
  | cons value values ih =>
    obtain ⟨event, rfl⟩ := messages value List.mem_cons_self
    have first : Consumers.Reader.step r (.publish partition event) =
        some (append partition [Outbox.message event] r) := rfl
    have rest := ih (fun value member => messages value (List.mem_cons_of_mem _ member))
        (append partition [Outbox.message event] r)
    have both : append partition values (append partition [Outbox.message event] r) =
        append partition (Outbox.message event :: values) r := by
      unfold append
      simp only [Function.update_self, Function.update_idem, List.append_assoc, List.singleton_append]
    rw [both] at rest
    exact Relation.ReflTransGen.head ⟨_, first⟩ rest

/-- The system runs as it does without order and offsets, and its reader as it does by itself. -/
structure Refines (w : Ledger.World) (o : Outbox.World) (c : Consumers.World) (s : Stream env) : Prop where
  pipeline : Pipeline.Runs (Pipeline.initial env w o c) s.forget
  reader : Consumers.Reader.Runs (unread c) s.reader
  topic : ∀ partition, ∀ value ∈ s.reader.log partition,
      (Outbox.kafkaLedgerTopic, value) ∈ (s.workers.world : Outbox.World).log

theorem Refines.ledger_step (refines : s.Refines w o c) {b : Concurrency.Action (Ledger.machine env)}
    {u : Concurrency.State (Ledger.machine env)} (moved : (Ledger.machine env).step s.ledger b = some u) :
    Refines w o c { s with
      ledger := u
      workers := post ((u.world : Ledger.World).db.events.drop
          (s.ledger.world : Ledger.World).db.events.length) s.workers } where
  pipeline := by
    apply refines.pipeline.tail
    use .ledger b
    simp only [Pipeline.step, forget, moved]
  reader := refines.reader
  topic := refines.topic

theorem Refines.workers_step (opening : Opening w o c) (refines : s.Refines w o c)
    {b : Concurrency.Action Outbox.machine}
    {partition : ℕ} {u : Concurrency.State Outbox.machine} (own : Outbox.isOwn b)
    (moved : Outbox.machine.step s.workers b = some u) :
    Refines w o c { s with workers := u, reader := append partition (sent s.workers.world u.world) s.reader } := by
  have pipeline : Pipeline.Runs (Pipeline.initial env w o c) (forget { s with workers := u }) := by
    apply refines.pipeline.tail
    use .workers b
    simp only [Pipeline.step, forget, own, moved, if_true]
  have linked := Linked.of_runs opening pipeline
  refine ⟨pipeline, refines.reader.trans (runs_append partition ?_ s.reader), ?_⟩
  · intro value member
    obtain ⟨event, _, same⟩ := linked.sent opening (mem_sent member)
    exact ⟨event, same⟩
  · intro k value member
    rcases mem_append member with earlier | new
    · exact (log_of_step moved).subset (refines.topic k value earlier)
    · exact mem_sent new

theorem Refines.reader_step (refines : s.Refines w o c) {b : Consumers.Reader.Action} {r : Consumers.Reader}
    (silent : isPublish b = false) (moved : s.reader.step b = some r) : Refines w o c { s with reader := r } := by
  have reader := refines.reader.tail ⟨b, moved⟩
  cases b with
  | publish partition event => cases silent
  | fetch p partition =>
    obtain ⟨value, calls, stored, _, started, rfl⟩ := Consumers.Reader.step_fetch moved
    refine ⟨?_, reader, refines.topic⟩
    have member := refines.topic partition value (List.mem_of_getElem? stored)
    apply refines.pipeline.tail
    use .consumers (.start p
      (⟨Outbox.kafkaLedgerTopic, partition, s.reader.position partition, value⟩ : Consumers.Message))
    simp only [Pipeline.step, forget, delivered, member, decide_true, started, if_true]
  | call b =>
    obtain ⟨calls, started, stepped, rfl⟩ := Consumers.Reader.step_call moved
    refine ⟨?_, reader, refines.topic⟩
    apply refines.pipeline.tail
    use .consumers b
    have handed : delivered s.workers.world b := by
      cases b with
      | start => cases started
      | _ => rfl
    simp only [Pipeline.step, forget, handed, stepped, if_true]
  | restart =>
    simp only [Consumers.Reader.step] at moved
    split_ifs at moved
    cases moved
    exact ⟨refines.pipeline, reader, refines.topic⟩

theorem refines_of_runs (opening : Opening w o c) (runs : Runs (initial env w o c) s) : s.Refines w o c := by
  induction runs with
  | refl => exact ⟨.refl, .refl, fun _ _ member => (List.not_mem_nil member).elim⟩
  | tail _ stepped ih =>
    obtain ⟨a, stepped⟩ := stepped
    rcases step_cases stepped with ⟨b, u, moved, rfl⟩ | ⟨b, partition, u, own, moved, rfl⟩ |
      ⟨b, r, silent, moved, rfl⟩
    · exact ih.ledger_step moved
    · exact ih.workers_step opening own moved
    · exact ih.reader_step silent moved

def Decodable (db : Tables) : Prop :=
  ∀ event ∈ db.events, (∃ changes, Consumers.deltas (Outbox.message event) = .ok changes) ↔ ¬Announces event

theorem decodable_posting {db : Tables} {request : Request} {P : Posting} (posted : PostedBy env db request P) :
    (∃ changes, Consumers.deltas (Outbox.message P.event) = .ok changes) ↔ ¬Announces P.event := by
  cases posted with
  | deposit =>
    constructor
    · intro _ same
      exact absurd (show "DEPOSIT_POSTED" = "TRANSFER_POSTED" from same) (by decide)
    · intro _
      exact ⟨_, Consumers.deltas_deposit rfl rfl⟩
  | withdrawal account system amount transaction debit credit eventId eventAt total found active cash isCash
      typed keyless stored =>
    obtain ⟨negated, negation, _⟩ := stored.debited
    constructor
    · intro _ same
      exact absurd (show "WITHDRAWAL_POSTED" = "TRANSFER_POSTED" from same) (by decide)
    · intro _
      exact ⟨_, Consumers.deltas_withdrawal rfl rfl negation⟩
  | transfer =>
    constructor
    · intro decodes
      obtain ⟨changes, decoded⟩ := decodes
      rw [Consumers.deltas_transfer rfl rfl] at decoded
      cases decoded
    · intro other
      exact absurd rfl other

theorem decodable_of_linked (opening : Opening w o c) {s : State env} (linked : Linked w o c s) :
    Decodable s.ledger.world.db := by
  have start : Decodable w.db := by
    intro event member
    rw [opening.events] at member
    cases member
  apply kept_of_runs opening.ledger start _ linked.ledger
  intro s a p request rows _ _ commits consistent decodable event member
  rcases List.mem_append.1 member with old | new
  · exact decodable event old
  · cases commits with
    | opens => cases new
    | posts P posted =>
      rw [List.mem_singleton.1 new]
      exact decodable_posting posted

/-- The transfers hold up the partitions that they are in: no consumer acknowledges one, and an event that is
processed has been published ahead of every transfer of some partition. -/
structure HeldUp (s : Stream env) : Prop where
  transfers : ∀ transfer ∈ s.ledger.world.db.events, Announces transfer → ∀ partition offset,
    (s.reader.log partition)[offset]? = some (Outbox.message transfer) →
      Consumers.committed partition s.reader.calls.world ≤ offset
  processed : ∀ eventId ∈ Consumers.registered s.reader.calls.world, ∃ event ∈ s.ledger.world.db.events,
    event.eventId = eventId ∧ ∃ partition offset : ℕ,
      (s.reader.log partition)[offset]? = some (Outbox.message event) ∧
      ∀ earlier ≤ offset, ∀ transfer ∈ s.ledger.world.db.events, Announces transfer →
        (s.reader.log partition)[earlier]? ≠ some (Outbox.message transfer)

theorem held_up (opening : Opening w o c) (uncommitted : ∀ partition, Consumers.committed partition c = 0)
    (runs : Runs (initial env w o c) s) : s.HeldUp := by
  have refines := refines_of_runs opening runs
  have linked := Linked.of_runs opening refines.pipeline
  have decodable := decodable_of_linked opening linked
  have unique : (s.ledger.world.db.events.map (·.eventId)).Nodup := (linked.consistent opening).eventIds
  have start : (unread c).Opening :=
    ⟨rfl, opening.consumers, uncommitted, fun _ _ absurd => (List.not_mem_nil absurd).elim, fun _ => rfl, rfl⟩
  have fresh : Consumers.registered (unread c).calls.world = ∅ := by
    simp [unread, Consumers.registered, opening.processed, Machine.initial]
  have copies : s.reader.Copies (content s.ledger.world.db.events) := by
    intro partition value member eventId identified
    obtain ⟨event, posted, rfl⟩ := linked.sent opening (refines.topic partition value member)
    rw [Consumers.eventIdOf_message, Except.ok.injEq] at identified
    rw [← identified]
    exact (content_of_mem unique posted).symm
  constructor
  · intro transfer member announces partition offset stored
    cases decoded : Consumers.deltas (Outbox.message transfer) with
    | ok changes => exact absurd announces ((decodable transfer member).1 ⟨changes, decoded⟩)
    | error error => exact Consumers.Reader.committed_le start fresh refines.reader copies stored decoded
  · intro eventId member
    obtain ⟨partition, offset, stored, ahead⟩ :=
      Consumers.Reader.registered_ahead start fresh refines.reader copies member
    obtain ⟨changes, decoded⟩ := ahead offset (Nat.le_refl offset) _ stored
    obtain ⟨event, posted, rfl⟩ := mem_of_content decoded
    have copy := content_of_mem unique posted
    refine ⟨event, posted, rfl, partition, offset, copy ▸ stored, ?_⟩
    intro earlier before transfer listed announces stored'
    exact (decodable transfer listed).1 (ahead earlier before _ stored') announces

/-! A deposit, and a transfer of the money to Bob. -/

def transferAfter (p : ℕ) : List (Concurrency.Action (Ledger.machine sample)) :=
  startTransfer p "rent" ++ (finishTransfer p).map fun
    | .step q (.uuid value) => .step q (.uuid (value + 2))
    | a => a

def sendBoth : List (Concurrency.Action Outbox.machine) :=
  [.start 0 (100 : ℕ), .step 0 .proceed, .step 0 (.order []), .step 0 .proceed, .step 0 .proceed,
    .step 0 (.order [11, 13])] ++ List.replicate 10 (.step 0 .proceed)

/-- A deposit and a transfer are published in partition 0, where a consumer takes the deposit and fails
at the transfer. -/
def takeBoth : List (Action sample) :=
  (deposit 0 hundred ++ transferAfter 1).map .ledger ++ sendBoth.map (.workers · 0) ++
    (.fetch 0 0 :: Consumers.Reader.proceeds 0 6 ++ .fetch 1 0 :: Consumers.Reader.proceeds 1 3).map .reader

theorem held_up_sample : ∃ s : Stream sample, Consumers.registered s.reader.calls.world = {11} ∧
    (s.reader.log 0).length = 2 ∧ Consumers.committed 0 s.reader.calls.world = 1 ∧ s.HeldUp := by
  have executed : (takeBoth.foldlM step (initial sample newBank emptyOutbox Consumers.emptyTables)).map
      (fun s => decide (Consumers.registered s.reader.calls.world = {11} ∧ (s.reader.log 0).length = 2 ∧
        Consumers.committed 0 s.reader.calls.world = 1)) = some true := by
    decide +kernel
  obtain ⟨s, reached, observed⟩ := Option.map_eq_some_iff.1 executed
  obtain ⟨processed, published, acknowledged⟩ := of_decide_eq_true observed
  exact ⟨s, processed, published, acknowledged,
    held_up sample_opening (fun _ => rfl) (reaches_of_actions reached)⟩

end Stream
end LedgerFlow.Pipeline
