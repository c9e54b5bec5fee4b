import LedgerFlow.Consumers.Advance
import LedgerFlow.Outbox.Delivery
import LedgerFlow.Outbox.Drain
import LedgerFlow.Pipeline.Stream

/-! The system can always catch up: wherever it is, the workers and the consumer can bring every event that
the ledger has posted to its end. The event is then processed, unless the worker sends it no more, or an event
that cannot be processed is ahead of it wherever it stands. -/

namespace LedgerFlow.Pipeline
open Concurrency Ledger

/-! What the ledger has posted is in the outbox, and what is published is in the topic. -/

section
variable {env : Deployment} {w : Ledger.World} {o : Outbox.World} {c : Consumers.World} {s : State env}
  {event : Outbox.OutboxEvent}

theorem arrived_of_runs (opening : Opening w o c) (runs : Runs (initial env w o c) s) :
    ∀ event ∈ s.ledger.world.db.events, event.eventId ∈ s.workers.world.events.rows := by
  induction runs with
  | refl =>
    intro event member
    change event ∈ w.db.events at member
    rw [opening.events] at member
    cases member
  | tail earlier stepped ih =>
    obtain ⟨a, stepped⟩ := stepped
    have linked := Linked.of_runs opening earlier
    rcases step_cases stepped with ⟨b, u, moved, rfl⟩ | ⟨b, u, own, moved, rfl⟩ |
      ⟨b, u, handed, moved, rfl⟩
    · intro event member
      rcases events_of_step (Ledger.covers_all opening.ledger linked.ledger) moved with same | ⟨new, grown, _⟩
      · change event ∈ u.world.db.events at member
        rw [same] at member
        change event.eventId ∈ (post (List.drop _ u.world.db.events) _).world.events.rows
        rw [same, List.drop_length]
        exact ih event member
      · change event ∈ u.world.db.events at member
        rw [grown] at member
        change event.eventId ∈ (post (List.drop _ u.world.db.events) _).world.events.rows
        rw [grown, List.drop_left]
        apply (AList.mem_insert _).2
        rcases List.mem_append.1 member with old | added
        · exact .inr (ih event old)
        · exact .inl (congrArg Outbox.OutboxEvent.eventId (List.mem_singleton.1 added))
    · exact fun event member => ((Outbox.rows_of_step (linked.covers opening) linked.locks own moved).2 _).2
        (ih event member)
    · exact ih

def Topical : Outbox.Stmt → Prop
  | .send topic _ => topic = Outbox.kafkaLedgerTopic
  | _ => True

abbrev Sends {α : Type} (code : Outbox.Code α) : Prop := code.Always (fun _ _ => True) Topical fun _ => True

namespace Sends

theorem call {stmt : Outbox.Stmt} (topical : Topical stmt) : Sends (.call stmt .ret) :=
  ⟨topical, fun _ _ => trivial⟩

theorem bind {α β : Type} {code : Outbox.Code α} {f : α → Outbox.Code β} (first : Sends code)
    (second : ∀ value, Sends (f value)) : Sends (code >>= f) :=
  Prog.Always.bind first fun value _ => second value

theorem flush (loaded edited : Outbox.OutboxEvent) : Sends (Outbox.flush loaded edited) := by
  unfold Outbox.flush
  split_ifs
  · trivial
  · refine ⟨trivial, fun result _ => ?_⟩
    cases result <;> trivial

theorem flushAll (edit : Outbox.OutboxEvent → Outbox.OutboxEvent) (events : List Outbox.OutboxEvent) :
    Sends (Outbox.flushAll edit events) := by
  induction events with
  | nil => trivial
  | cons row events ih => exact bind (flush row (edit row)) fun _ => ih

theorem markEvent (eventId : UUID) {mark : Outbox.OutboxEvent → Outbox.Code Outbox.OutboxEvent}
    (marks : ∀ loaded, Sends (mark loaded)) : Sends (Outbox.markEvent eventId mark) := by
  refine bind (call trivial) fun row => ?_
  cases row with
  | none => trivial
  | some loaded => exact bind (marks loaded) fun edited => bind (flush loaded edited) fun _ => call trivial

theorem markFailed (loaded : Outbox.OutboxEvent) (error : String) : Sends (Outbox.markFailed loaded error) := by
  unfold Outbox.markFailed
  split_ifs
  · trivial
  · exact bind (call trivial) fun _ => trivial

theorem publish (claimed : Outbox.OutboxEvent) : Sends (Outbox.publish claimed) := by
  refine bind (call rfl) fun sent => ?_
  cases sent with
  | error error => exact bind (markEvent _ fun loaded => markFailed loaded error) fun _ => trivial
  | ok => exact bind (markEvent _ fun _ => bind (call trivial) fun _ => trivial) fun _ => trivial

theorem publishAll (events : List Outbox.OutboxEvent) : Sends (Outbox.publishAll events) := by
  induction events with
  | nil => trivial
  | cons claimed events ih => exact bind (publish claimed) fun _ => bind ih fun _ => trivial

theorem processBatch (batchSize : ℕ) : Sends (Outbox.processBatch batchSize) := by
  have recovers : Sends (Outbox.recoverStaleEvents batchSize) :=
    bind (call trivial) fun _ => bind (call trivial) fun _ => bind (flushAll _ _) fun _ =>
      bind (call trivial) fun _ => trivial
  have claims : Sends (Outbox.claimPendingEvents batchSize) :=
    bind (call trivial) fun _ => bind (call trivial) fun _ => bind (flushAll _ _) fun _ =>
      bind (call trivial) fun _ => trivial
  exact bind recovers fun _ => bind claims publishAll

end Sends

theorem topical_of_runs {ok : Concurrency.State Outbox.machine → Concurrency.Action Outbox.machine → Prop}
    {u : Concurrency.State Outbox.machine} (runs : Outbox.machine.Runs ok (Outbox.machine.initial o) u) {p : ℕ}
    {proc : Proc Outbox.machine} (found : u.procs p = some proc) {topic : String} {document : Json}
    {next : Except String Unit → Outbox.Code ℕ} (rest : proc.rest = .call (.send topic document) next) :
    topic = Outbox.kafkaLedgerTopic := by
  have bodies : ∀ batchSize : ℕ, Sends (Outbox.machine.body batchSize) := Sends.processBatch
  have topical := (Machine.Runs.always (J := fun _ => True) bodies (fun _ _ _ => ⟨trivial, trivial⟩)
    (fun _ => trivial) (fun _ _ _ => trivial) runs trivial).2 p proc found
  rw [rest] at topical
  exact topical.1

theorem logged_of_traces {ok : Concurrency.State Outbox.machine → Concurrency.Action Outbox.machine → Prop}
    {u : Concurrency.State Outbox.machine} {trace : List (Executed Outbox.language)}
    (traces : Outbox.machine.Traces ok (Outbox.machine.initial o) trace u) {eventId : UUID}
    {e : Executed Outbox.language}
    (member : e ∈ trace) (sent : Outbox.outcome eventId e = some true) :
    ∃ document, (Outbox.kafkaLedgerTopic, document) ∈ (u.world : Outbox.World).log ∧
      document.item "event_id" = .ok (.str eventId.str) := by
  induction traces with
  | refl => cases member
  | tail run _ stepped ih =>
    have grown := (Stream.log_of_step stepped).subset
    rcases List.mem_append.1 member with new | old
    · have performed := Option.mem_toList.1 new
      rcases Machine.step_cases stepped with ⟨p, request, rfl, _⟩ |
        ⟨p, choice, proc, stmt, next, result, w', rfl, found, rest, executed, rfl⟩ |
        ⟨p, proc, rfl, _⟩ | ⟨p, proc, rfl, _⟩ | ⟨e, w', rfl, _⟩
      · cases performed
      · cases (Machine.executed_step found rest executed).symm.trans performed
        cases stmt with
        | send topic document =>
          simp only [Outbox.outcome] at sent
          split_ifs at sent with own
          obtain rfl := topical_of_runs run.runs found rest
          rcases Outbox.send_cases executed with ⟨_, rfl⟩ | ⟨error, _, rfl, _⟩
          · exact ⟨document, List.mem_append_right _ List.mem_cons_self, own⟩
          · cases sent
        | _ => cases sent
      · cases performed
      · cases performed
      · cases performed
    · obtain ⟨document, listed, own⟩ := ih old
      exact ⟨document, grown listed, own⟩

theorem logged_of_published (opening : Opening w o c) (runs : Runs (initial env w o c) s)
    (posted : event ∈ s.ledger.world.db.events) {row : Outbox.OutboxEvent}
    (stored : Outbox.World.table s.workers.world event.eventId = some row) (published : row.status = .published) :
    (Outbox.kafkaLedgerTopic, Outbox.message event) ∈ (s.workers.world : Outbox.World).log := by
  have linked := Linked.of_runs opening runs
  have untried : Outbox.Untried o := by
    intro eventId row stored
    rw [opening.outbox] at stored
    cases stored
  obtain ⟨trace, traces⟩ := (linked.workers (fun _ => True) fun _ _ => trivial).traces
  have sends := ((Outbox.accounted_of_traces opening.workers untried traces).rows event.eventId row
      stored).published published
  obtain ⟨e, member, sent⟩ := List.countP_pos_iff.1 sends
  obtain ⟨document, listed, own⟩ := logged_of_traces traces member (of_decide_eq_true sent)
  obtain ⟨other, posted', rfl⟩ := linked.sent opening listed
  have ids : other.eventId = event.eventId := by
    rw [Outbox.message_event_id] at own
    exact UUID.str_injective (Json.str.inj (Except.ok.inj own))
  have same : other = event := List.inj_on_of_nodup_map (linked.consistent opening).eventIds posted' posted ids
  exact same ▸ listed

/-! What the consumer makes of an event: it reads one change, or the event is that of a transfer. -/

structure Reads (event : Outbox.OutboxEvent) : Prop where
  stores : varchar 100 event.eventType = some event.eventType
  single : (∃ accountId value, Consumers.deltas (Outbox.message event) = .ok [(accountId, value)]) ∨
    Stream.Announces event ∧ ∃ error, Consumers.deltas (Outbox.message event) = .error error

theorem reads_posting {db : Tables} {request : Request} {P : Posting} (posted : PostedBy env db request P) :
    Reads P.event := by
  cases posted with
  | deposit =>
    constructor
    · change varchar 100 "DEPOSIT_POSTED" = some "DEPOSIT_POSTED"
      decide +kernel
    · exact .inl ⟨_, _, Consumers.deltas_deposit rfl rfl⟩
  | withdrawal account system amount transaction debit credit eventId eventAt total found active cash isCash
      typed keyless stored =>
    obtain ⟨negated, negation, _⟩ := stored.debited
    constructor
    · change varchar 100 "WITHDRAWAL_POSTED" = some "WITHDRAWAL_POSTED"
      decide +kernel
    · exact .inl ⟨_, _, Consumers.deltas_withdrawal rfl rfl negation⟩
  | transfer =>
    constructor
    · change varchar 100 "TRANSFER_POSTED" = some "TRANSFER_POSTED"
      decide +kernel
    · exact .inr ⟨rfl, _, Consumers.deltas_transfer rfl rfl⟩

theorem reads_of_linked (opening : Opening w o c) (linked : Linked w o c s) :
    ∀ event ∈ s.ledger.world.db.events, Reads event := by
  apply kept_of_runs (I := fun db => ∀ event ∈ db.events, Reads event) opening.ledger _ _ linked.ledger
  · intro event member
    rw [opening.events] at member
    cases member
  · intro s a p request rows _ _ commits consistent reads event member
    rcases List.mem_append.1 member with old | new
    · exact reads event old
    · cases commits with
      | opens => cases new
      | posts P posted =>
        rw [List.mem_singleton.1 new]
        exact reads_posting posted

theorem inOrder_of_runs (opening : Opening w o c) (runs : Runs (initial env w o c) s) :
    Consumers.machine.Runs Consumers.InOrder (Consumers.machine.initial c) s.consumers := by
  induction runs with
  | refl => exact .refl
  | tail earlier stepped ih =>
    obtain ⟨a, stepped⟩ := stepped
    have linked := Linked.of_runs opening earlier
    rcases step_cases stepped with ⟨b, u, moved, rfl⟩ | ⟨b, u, own, moved, rfl⟩ |
      ⟨b, u, handed, moved, rfl⟩
    · exact ih
    · exact ih
    · refine ih.tail ⟨b, ?_, moved⟩
      intro p message source destination same transfers
      subst same
      have listed : (Consumers.Message.topic message, Consumers.Message.value message) ∈ _ :=
        of_decide_eq_true handed
      obtain ⟨event, posted, carried⟩ := linked.sent opening listed
      obtain ⟨_, changes, decoded, accounts⟩ := transfers
      rw [carried] at decoded
      rcases (reads_of_linked opening linked event posted).single with ⟨accountId, value, single⟩ |
        ⟨_, error, refused⟩
      · cases single.symm.trans decoded
        cases accounts
      · cases refused.symm.trans decoded

end

namespace Stream
open Consumers (committed registered)

/-- The workers and the consumer run on, with batches of this size; what a worker sends goes to the partition
that `place` says. The ledger stands still, and nobody is cut off. -/
def Recovering {env : Deployment} (size : ℕ) (place : Stream env → ℕ) (s : Stream env) : Action env → Prop
  | .ledger _ => False
  | .workers a partition => Outbox.Works size s.workers a ∧ partition = place s
  | .reader a => a.Undisturbed

abbrev Recovers {env : Deployment} (size : ℕ) (place : Stream env → ℕ) : Stream env → Stream env → Prop :=
  Relation.ReflTransGen fun s t => ∃ a, Recovering size place s a ∧ step s a = some t

/-- The column of the projection does not hold the amount of the event, or not the balance that it leads to. -/
def TooLarge (event : Outbox.OutboxEvent) (c : Consumers.World) : Prop :=
  ∃ accountId value, Consumers.deltas (Outbox.message event) = .ok [(accountId, value)] ∧
    ∀ excluded, Consumers.Balance.ofNumber value = some excluded →
      Consumers.upserted accountId excluded c.clock (c.projections.rows.lookup accountId) = none

/-- The next message of the partition is that of an event which is not processed and cannot be, now. -/
structure Blocks {env : Deployment} (s : Stream env) (partition : ℕ) (event : Outbox.OutboxEvent) : Prop where
  posted : event ∈ s.ledger.world.db.events
  next : (s.reader.log partition)[committed partition s.reader.calls.world]? = some (Outbox.message event)
  unprocessed : event.eventId ∉ registered s.reader.calls.world
  refused : Announces event ∨ TooLarge event s.reader.calls.world

inductive Settled {env : Deployment} (s : Stream env) (event : Outbox.OutboxEvent) : Prop where
  | processed (registers : event.eventId ∈ registered s.reader.calls.world)
  /-- It has been published, and wherever its message stands another one blocks the partition, or this one. -/
  | heldUp (published : ∃ partition, Outbox.message event ∈ s.reader.log partition)
      (behind : ∀ partition offset : ℕ, (s.reader.log partition)[offset]? = some (Outbox.message event) →
        committed partition s.reader.calls.world ≤ offset ∧ ∃ first, s.Blocks partition first)
  /-- The worker has given up, or the event is claimed and nobody knows since when. -/
  | unsent {row : Outbox.OutboxEvent} (stored : Outbox.World.table s.workers.world event.eventId = some row)
      (given : row.status = .failed ∨ row.status = .processing ∧ row.claimedAt = none)

variable {env : Deployment} {w : Ledger.World} {o : Outbox.World} {c : Consumers.World}
  {s t : Stream env} {size n : ℕ} {place : Stream env → ℕ} {event : Outbox.OutboxEvent}

theorem Recovers.runs (recovers : Recovers size place s t) : Runs s t := by
  induction recovers with
  | refl => exact .refl
  | tail _ stepped ih =>
    obtain ⟨a, _, stepped⟩ := stepped
    exact ih.tail ⟨a, stepped⟩

theorem recovers_of_workers {u : Concurrency.State Outbox.machine}
    (later : Outbox.machine.Runs (Outbox.Works size) s.workers u) :
    ∃ r, Recovers size place s { s with workers := u, reader := r } := by
  induction later with
  | refl => exact ⟨s.reader, .refl⟩
  | @tail u v _ stepped ih =>
    obtain ⟨a, works, stepped⟩ := stepped
    obtain ⟨r, earlier⟩ := ih
    have own : Outbox.isOwn a := by
      cases a with
      | tick e => exact works
      | _ => rfl
    have next : step { s with workers := u, reader := r } (.workers a (place { s with workers := u, reader := r })) =
        some { s with
          workers := v
          reader := append (place { s with workers := u, reader := r }) (sent u.world v.world) r } := by
      simp only [step, if_pos own, stepped]
    exact ⟨_, earlier.tail ⟨.workers a _, ⟨works, rfl⟩, next⟩⟩

theorem recovers_of_reader {r : Consumers.Reader} (later : s.reader.Proceeds r) :
    Recovers size place s { s with reader := r } := by
  induction later with
  | refl => exact .refl
  | tail _ stepped ih =>
    obtain ⟨a, undisturbed, stepped⟩ := stepped
    have silent : isPublish a = false := by
      cases a with
      | publish => exact undisturbed.elim
      | _ => rfl
    refine ih.tail ⟨.reader a, undisturbed, ?_⟩
    simp only [step, silent, stepped, Bool.false_eq_true, if_false]

theorem log_of_reader {b : Consumers.Reader.Action} {r r' : Consumers.Reader} (silent : isPublish b = false)
    (moved : r.step b = some r') : r'.log = r.log := by
  cases b with
  | publish => cases silent
  | fetch =>
    obtain ⟨_, _, _, _, _, rfl⟩ := Consumers.Reader.step_fetch moved
    rfl
  | call =>
    obtain ⟨_, _, _, rfl⟩ := Consumers.Reader.step_call moved
    rfl
  | restart =>
    simp only [Consumers.Reader.step] at moved
    split_ifs at moved
    cases moved
    rfl

theorem log_append (partition k : ℕ) (values : List Json) (r : Consumers.Reader) :
    (append partition values r).log k = if k = partition then r.log k ++ values else r.log k := by
  split_ifs with same
  · subst same
    exact Function.update_self ..
  · exact Function.update_of_ne same ..

theorem placed_of_runs (opening : Opening w o c) (runs : Runs (initial env w o c) s) {value : Json}
    (listed : (Outbox.kafkaLedgerTopic, value) ∈ (s.workers.world : Outbox.World).log) :
    ∃ partition, value ∈ s.reader.log partition := by
  induction runs with
  | refl =>
    change _ ∈ o.log at listed
    rw [opening.topic] at listed
    cases listed
  | tail _ stepped ih =>
    obtain ⟨a, stepped⟩ := stepped
    rcases step_cases stepped with ⟨b, u, moved, rfl⟩ | ⟨b, partition, u, own, moved, rfl⟩ |
      ⟨b, r, silent, moved, rfl⟩
    · exact ih listed
    · obtain ⟨new, grown⟩ := log_of_step moved
      have listed : _ ∈ (u.world : Outbox.World).log := listed
      rw [← grown] at listed
      rcases List.mem_append.1 listed with earlier | later
      · obtain ⟨k, member⟩ := ih earlier
        use k
        rw [log_append]
        split_ifs
        · exact List.mem_append_left _ member
        · exact member
      · use partition
        rw [log_append, if_pos rfl]
        apply List.mem_append_right
        refine List.mem_map.2 ⟨(Outbox.kafkaLedgerTopic, value),
          List.mem_filter.2 ⟨?_, decide_eq_true rfl⟩, rfl⟩
        rw [← grown, List.drop_left]
        exact later
    · obtain ⟨k, member⟩ := ih listed
      exact ⟨k, (log_of_reader silent moved).symm ▸ member⟩

theorem finite_of_runs (runs : Runs (initial env w o c) s) : ∃ N, ∀ partition, N ≤ partition →
    s.reader.log partition = [] := by
  induction runs with
  | refl => exact ⟨0, fun _ _ => rfl⟩
  | tail _ stepped ih =>
    obtain ⟨a, stepped⟩ := stepped
    obtain ⟨N, empty⟩ := ih
    rcases step_cases stepped with ⟨b, u, moved, rfl⟩ | ⟨b, partition, u, own, moved, rfl⟩ |
      ⟨b, r, silent, moved, rfl⟩
    · exact ⟨N, empty⟩
    · refine ⟨max N (partition + 1), fun k beyond => ?_⟩
      have other : k ≠ partition := by
        have := le_of_max_le_right beyond
        omega
      rw [log_append, if_neg other]
      exact empty k (le_of_max_le_left beyond)
    · exact ⟨N, fun k beyond => (log_of_reader silent moved).symm ▸ empty k beyond⟩

theorem opening_unread (opening : Opening w o c) (uncommitted : ∀ partition, committed partition c = 0) :
    (unread c).Opening :=
  ⟨rfl, opening.consumers, uncommitted, fun _ _ absurd => (List.not_mem_nil absurd).elim, fun _ => rfl, rfl⟩

theorem posted_of_stored (opening : Opening w o c) (runs : Runs (initial env w o c) s)
    {partition offset : ℕ} {value : Json} (stored : (s.reader.log partition)[offset]? = some value) :
    ∃ event ∈ s.ledger.world.db.events, value = Outbox.message event := by
  have refines := refines_of_runs opening runs
  exact (Linked.of_runs opening refines.pipeline).sent opening
    (refines.topic partition value (List.mem_of_getElem? stored))

theorem processes {r : Consumers.Reader} (message : Consumers.Message) (ready : r.Ready n)
    (carried : message.value = Outbox.message event) (reads : Reads event)
    (open' : ¬(event.eventId ∉ registered r.calls.world ∧ (Announces event ∨ TooLarge event r.calls.world))) :
    ∃ w', Consumers.machine.alone n .proceed (Consumers.processMessage message) r.calls.world =
    some (.ok (), w') ∧
      w'.Opening := by
  have identified : Consumers.eventIdOf message.value = .ok event.eventId :=
    carried ▸ Consumers.eventIdOf_message event
  have typed : message.value.item "event_type" = .ok (.str event.eventType) :=
    carried ▸ Outbox.message_event_type event
  by_cases known : event.eventId ∈ registered r.calls.world
  · obtain ⟨w', performed, closed, _⟩ :=
      Consumers.alone_known n ready.opening known identified typed reads.stores
    exact ⟨w', performed, closed⟩
  · rcases reads.single with ⟨accountId, value, decoded⟩ | ⟨announces, _⟩
    · have taken : ∃ excluded row, Consumers.Balance.ofNumber value = some excluded ∧
          Consumers.upserted accountId excluded (Consumers.World.clock r.calls.world)
            ((Consumers.World.projections r.calls.world).rows.lookup accountId) = some row := by
        by_contra refused
        refine open' ⟨known, .inr ⟨accountId, value, decoded, fun excluded held => ?_⟩⟩
        exact Option.eq_none_iff_forall_ne_some.2 fun row written => refused ⟨excluded, row, held, written⟩
      obtain ⟨excluded, row, held, written⟩ := taken
      obtain ⟨w', performed, closed, _⟩ :=
        Consumers.alone_processMessage n ready.opening known identified typed reads.stores
        (carried ▸ decoded) held written
      exact ⟨w', performed, closed⟩
    · exact absurd ⟨known, .inl announces⟩ open'

theorem passes (opening : Opening w o c) (runs : Runs (initial env w o c) s) (ready : s.reader.Ready n)
    {partition : ℕ} (stored : (s.reader.log partition)[s.reader.position partition]? = some (Outbox.message event))
    (posted : event ∈ s.ledger.world.db.events)
    (open' : ¬(event.eventId ∉ registered s.reader.calls.world ∧
      (Announces event ∨ TooLarge event s.reader.calls.world))) :
    ∃ r, s.reader.Proceeds r ∧ r.Ready (n + 1) ∧ r.log = s.reader.log ∧
      r.position = Function.update s.reader.position partition (s.reader.position partition + 1) := by
  have reads := reads_of_linked opening (Linked.of_runs opening (refines_of_runs opening runs).pipeline) event posted
  obtain ⟨w', performed, closed⟩ := processes
    ⟨Outbox.kafkaLedgerTopic, partition, s.reader.position partition, Outbox.message event⟩ ready rfl reads open'
  obtain ⟨r, proceeds, ready', log, position, _⟩ := ready.advance stored performed closed
  exact ⟨r, proceeds, ready', log, position⟩

def lag (N : ℕ) (r : Consumers.Reader) : ℕ := ∑ k ∈ Finset.range N, ((r.log k).length - r.position k)

theorem lag_lt {N partition : ℕ} {r r' : Consumers.Reader} (below : partition < N)
    (left : r.position partition < (r.log partition).length) (log : r'.log = r.log)
    (position : r'.position = Function.update r.position partition (r.position partition + 1)) :
    lag N r' < lag N r := by
  unfold lag
  rw [log, position]
  apply Finset.sum_lt_sum
  · intro k _
    by_cases same : k = partition
    · subst same
      rw [Function.update_self]
      omega
    · rw [Function.update_of_ne same]
  · refine ⟨partition, Finset.mem_range.2 below, ?_⟩
    rw [Function.update_self]
    omega

def Stuck (s : Stream env) : Prop :=
  ∀ partition value, (s.reader.log partition)[s.reader.position partition]? = some value →
    ∃ event ∈ s.ledger.world.db.events, value = Outbox.message event ∧
      event.eventId ∉ registered s.reader.calls.world ∧
      (Announces event ∨ TooLarge event s.reader.calls.world)

theorem reads_on (opening : Opening w o c) (runs : Runs (initial env w o c) s) (ready : s.reader.Ready n) {N : ℕ}
    (empty : ∀ partition, N ≤ partition → s.reader.log partition = []) :
    ∃ r m, s.reader.Proceeds r ∧ r.Ready m ∧ Stuck { s with reader := r } := by
  induction distance : lag N s.reader using Nat.strong_induction_on generalizing s n with
  | _ distance ih =>
    by_cases left : ∃ partition, ∃ event ∈ s.ledger.world.db.events,
        (s.reader.log partition)[s.reader.position partition]? = some (Outbox.message event) ∧
        ¬(event.eventId ∉ registered s.reader.calls.world ∧
          (Announces event ∨ TooLarge event s.reader.calls.world))
    · obtain ⟨partition, event, posted, stored, open'⟩ := left
      obtain ⟨r, first, ready', log, position⟩ := passes opening runs ready stored posted open'
      have further : Runs s { s with reader := r } := (recovers_of_reader first : Recovers 0 (fun _ => 0) s _).runs
      obtain ⟨bound, _⟩ := List.getElem?_eq_some_iff.1 stored
      have below : partition < N := by
        by_contra beyond
        rw [empty partition (by omega)] at bound
        cases bound
      have less := lag_lt below bound log position
      obtain ⟨r', m, rest, done⟩ := ih _ (distance ▸ less) (runs.trans further) ready'
        (fun k beyond => log ▸ empty k beyond) rfl
      exact ⟨r', m, first.trans rest, done⟩
    · refine ⟨s.reader, n, .refl, ready, fun partition value stored => ?_⟩
      obtain ⟨event, posted, rfl⟩ := posted_of_stored opening runs stored
      refine ⟨event, posted, rfl, ?_⟩
      by_contra open'
      exact left ⟨partition, event, posted, stored, open'⟩

theorem Stuck.settles (opening : Opening w o c) (uncommitted : ∀ partition, committed partition c = 0)
    (runs : Runs (initial env w o c) s) (stuck : s.Stuck) (waiting : s.reader.Waiting)
    (ended : ∀ eventId row, Outbox.World.table s.workers.world eventId = some row → Outbox.Ended row)
    (posted : event ∈ s.ledger.world.db.events) : s.Settled event := by
  have refines := refines_of_runs opening runs
  obtain ⟨row, stored⟩ := Option.isSome_iff_exists.1
    (AList.lookup_isSome.2 (arrived_of_runs opening refines.pipeline event posted))
  have stored : Outbox.World.table s.workers.world event.eventId = some row := stored
  cases ended _ row stored with
  | failed status => exact .unsent stored (.inl status)
  | orphaned status unknown => exact .unsent stored (.inr ⟨status, unknown⟩)
  | published status =>
    have listed := logged_of_published opening refines.pipeline posted stored status
    obtain ⟨trace, tracks⟩ := Consumers.Reader.tracks_of_runs (opening_unread opening uncommitted) refines.reader
    by_cases known : event.eventId ∈ registered s.reader.calls.world
    · exact .processed known
    · refine .heldUp (placed_of_runs opening runs listed) fun partition offset stored' => ?_
      have beyond : committed partition s.reader.calls.world ≤ offset := by
        by_contra before
        obtain ⟨value, eventId, registers, identified, member⟩ :=
          tracks.settled partition offset (Nat.lt_of_not_le before)
        cases stored'.symm.trans registers
        rw [Consumers.eventIdOf_message, Except.ok.injEq] at identified
        exact known (identified ▸ member)
      obtain ⟨bound, _⟩ := List.getElem?_eq_some_iff.1 stored'
      have position := tracks.caught_up waiting partition
      obtain ⟨value, next⟩ : ∃ value, (s.reader.log partition)[committed partition s.reader.calls.world]? =
        some value :=
        ⟨_, List.getElem?_eq_getElem (Nat.lt_of_le_of_lt beyond bound)⟩
      obtain ⟨first, posted', rfl, unprocessed, refused⟩ := stuck partition value (position ▸ next)
      exact ⟨beyond, first, posted', next, unprocessed, refused⟩

/-- Wherever the system is, it can catch up without the ledger and without a crash, with batches of any size
and wherever the producer puts the messages. -/
theorem catches_up (opening : Opening w o c) (uncommitted : ∀ partition, committed partition c = 0)
    (runs : Runs (initial env w o c) s) (positive : 0 < size) (place : Stream env → ℕ) :
    ∃ t, Recovers size place s t ∧ t.ledger = s.ledger ∧ ∀ event ∈ s.ledger.world.db.events,
    t.Settled event := by
  have linked := Linked.of_runs opening (refines_of_runs opening runs).pipeline
  have workers : Outbox.machine.Runs Outbox.machine.anything (Outbox.machine.initial o) s.workers :=
    Machine.Runs.mono (fun _ _ _ => trivial) (linked.workers (fun _ => True) fun _ _ => trivial)
  obtain ⟨u, worked, ended⟩ := Outbox.works_off opening.workers workers positive
  obtain ⟨r, first⟩ : ∃ r, Recovers size place s { s with workers := u, reader := r } :=
    recovers_of_workers worked
  have reached := refines_of_runs opening (runs.trans first.runs)
  obtain ⟨r', n, second, ready, _⟩ := Consumers.Reader.readies opening.consumers
    (inOrder_of_runs opening reached.pipeline)
  have both : Recovers size place s { s with workers := u, reader := r' } := first.trans (recovers_of_reader second)
  obtain ⟨N, empty⟩ := finite_of_runs (runs.trans both.runs)
  obtain ⟨r'', m, third, ready', stuck⟩ := reads_on opening (runs.trans both.runs) ready empty
  have recovers : Recovers size place s { s with workers := u, reader := r'' } :=
    both.trans (recovers_of_reader third)
  refine ⟨_, recovers, rfl, fun event posted => ?_⟩
  exact stuck.settles opening uncommitted (runs.trans recovers.runs) ready'.waiting ended posted

/-- A worker has claimed the events of a deposit and a transfer, and is cut off before it sends them. -/
def cutOff : List (Action sample) :=
  (deposit 0 hundred ++ transferAfter 1).map .ledger ++
    (sendBoth.take 9 ++ [Concurrency.Action.abort 0, Concurrency.Action.close 0]).map (.workers · 0)

def claimedBoth (s : Stream sample) : Bool :=
  [11, 13].all fun eventId => (Outbox.World.table s.workers.world eventId).any (·.status = .processing)

theorem catches_up_sample : ∃ s t : Stream sample, s.ledger.world.db.events.length = 2 ∧ claimedBoth s ∧
    Recovers 1 (fun _ => 0) s t ∧ t.ledger = s.ledger ∧ ∀ event ∈ s.ledger.world.db.events,
    t.Settled event := by
  have executed : (cutOff.foldlM step (initial sample newBank emptyOutbox Consumers.emptyTables)).map
      (fun s => decide (s.ledger.world.db.events.length = 2) && claimedBoth s) = some true := by
    decide +kernel
  obtain ⟨s, reached, observed⟩ := Option.map_eq_some_iff.1 executed
  rw [Bool.and_eq_true] at observed
  obtain ⟨t, recovers, still, settled⟩ :=
    catches_up sample_opening (fun _ => rfl) (reaches_of_actions reached) Nat.one_pos fun _ => 0
  exact ⟨s, t, of_decide_eq_true observed.1, observed.2, recovers, still, settled⟩

end Stream
end LedgerFlow.Pipeline
