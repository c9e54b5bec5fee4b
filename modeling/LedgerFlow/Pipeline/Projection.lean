import LedgerFlow.Consumers.Agreement
import LedgerFlow.Ledger.Solvency
import LedgerFlow.Pipeline.Model

/-! The projection shows the entries of exactly those transactions whose events have been processed. -/

namespace LedgerFlow.Pipeline
open Concurrency Ledger

def content (events : List Outbox.OutboxEvent) (eventId : UUID) : Json :=
  (events.find? (·.eventId = eventId)).elim .null Outbox.message

/-- The sum of the entries on an account, in cents, over the transactions whose events are in `processed`. -/
def shown (db : Tables) (processed : Finset UUID) (x : UUID) : ℤ :=
  ((db.entries.filter fun entry => entry.accountId = x ∧
    ∃ event ∈ db.events, event.aggregateId = entry.transactionId ∧ event.eventId ∈ processed).map
      (·.amount.unscaled)).sum

def PostsOnly (A : Outbox.OutboxEvent → Prop) (_ : Concurrency.State Outbox.machine)
    (a : Concurrency.Action Outbox.machine) : Prop :=
  ∀ eventId aggregateId eventType payload createdAt,
    a = .tick (.post eventId aggregateId eventType payload createdAt) →
    A (Outbox.createOutboxEvent eventId aggregateId eventType payload createdAt)

variable {env : Deployment} {w : Ledger.World} {o : Outbox.World} {c : Consumers.World} {s t : State env}
  {events : List Outbox.OutboxEvent} {event : Outbox.OutboxEvent}

/-- The components run as they do by themselves, with the events of the ledger in the
outbox and its messages delivered. -/
structure Linked (w : Ledger.World) (o : Outbox.World) (c : Consumers.World) (s : State env) : Prop where
  ledger : (Ledger.machine env).Runs (Ledger.machine env).anything ((Ledger.machine env).initial w) s.ledger
  workers : ∀ A : Outbox.OutboxEvent → Prop, (∀ event ∈ s.ledger.world.db.events, A event) →
    Outbox.machine.Runs (PostsOnly A) (Outbox.machine.initial o) s.workers
  rows : ∀ eventId ∈ s.workers.world.events.rows, eventId ∈ s.ledger.world.db.events.map (·.eventId)
  locks : Outbox.World.LocksRows s.workers.world
  consumers : ∀ events : List Outbox.OutboxEvent, (events.map (·.eventId)).Nodup →
    (∀ event ∈ s.ledger.world.db.events, event ∈ events) →
    Consumers.machine.Runs (Consumers.Delivering (content events)) (Consumers.machine.initial c) s.consumers

theorem content_of_mem (unique : (events.map (·.eventId)).Nodup) (member : event ∈ events) :
    content events event.eventId = Outbox.message event := by
  have found : events.find? (·.eventId = event.eventId) = some event := by
    obtain ⟨other, search⟩ : ∃ other, events.find? (·.eventId = event.eventId) = some other := by
      apply Option.isSome_iff_exists.1
      rw [List.find?_isSome]
      exact ⟨event, member, by simp⟩
    have same : other.eventId = event.eventId := by simpa using List.find?_some search
    rw [search, List.inj_on_of_nodup_map unique (List.mem_of_find?_eq_some search) member same]
  rw [content, found]
  rfl

theorem mem_of_content {eventId : UUID} {changes : List (UUID × Decimal.Number)}
    (decoded : Consumers.deltas (content events eventId) = .ok changes) : ∃ event ∈ events,
    event.eventId = eventId := by
  cases found : events.find? (·.eventId = eventId) with
  | none =>
    rw [content, found] at decoded
    cases decoded
  | some event => exact ⟨event, List.mem_of_find?_eq_some found, by simpa using List.find?_some found⟩

theorem created_of_posted {db : Tables} {request : Request} {P : Posting} (posted : PostedBy env db request P) :
    ∃ eventId aggregateId eventType payload createdAt,
      P.event = Outbox.createOutboxEvent eventId aggregateId eventType payload createdAt := by
  cases posted <;> exact ⟨_, _, _, _, _, rfl⟩

theorem events_of_step {l l' : Concurrency.State (Ledger.machine env)} {a : Concurrency.Action (Ledger.machine env)}
    (covered : (contract env fun _ => True).Covers Unused l) (stepped : (Ledger.machine env).step l a = some l') :
    l'.world.db.events = l.world.db.events ∨ ∃ event, l'.world.db.events = l.world.db.events ++ [event] ∧
      event.eventId ∉ l.world.db.events.map (·.eventId) ∧ ∃ eventId aggregateId eventType payload createdAt,
        event = Outbox.createOutboxEvent eventId aggregateId eventType payload createdAt := by
  rcases takes_of_step covered stepped with same | ⟨request, rows, _, commits, grown⟩
  · exact .inl (congrArg Tables.events same)
  · rw [grown]
    cases commits with
    | opens => exact .inl (by simp)
    | posts P posted fresh freshEvent =>
      refine .inr ⟨P.event, rfl, fun member => freshEvent ?_, created_of_posted posted⟩
      simp only [Tables.ids, List.mem_append]
      exact .inr member

theorem linked_of_opening (opening : Opening w o c) : Linked w o c (initial env w o c) where
  ledger := .refl
  workers _ _ := .refl
  rows eventId member := by
    change eventId ∈ o.events.rows at member
    rw [opening.outbox] at member
    exact absurd member (AList.notMem_empty eventId)
  locks eventId locked := absurd (opening.workers.store.locks eventId) locked
  consumers _ _ _ := .refl

namespace Linked
variable (opening : Opening w o c)
include opening

theorem consistent (linked : Linked w o c s) : s.ledger.world.db.Consistent :=
  consistent_of_runs opening.ledger linked.ledger

theorem covers (linked : Linked w o c s) : Outbox.contract.Covers Outbox.Unused s.workers :=
  Outbox.covers opening.workers (linked.workers (fun _ => True) fun _ _ => trivial)

theorem keeps (linked : Linked w o c s)
    (unique : ∀ other ∈ s.ledger.world.db.events, other.eventId = event.eventId → other = event) :
    Outbox.World.Keeps event s.workers.world := by
  have runs := linked.workers (fun other => other.eventId = event.eventId → other = event) unique
  apply Outbox.keeps_of_runs opening.workers opening.topic ?_ (runs.mono fun _ _ posts => posts)
  intro id row stored
  rw [opening.outbox] at stored
  cases stored

theorem sent_eq (linked : Linked w o c s) {topic : String} {row : Outbox.OutboxEvent}
    (sent : (topic, Outbox.message row) ∈ s.workers.world.log) (own : row.eventId = event.eventId)
    (unique : ∀ other ∈ s.ledger.world.db.events, other.eventId = event.eventId → other = event) :
    Outbox.message row = Outbox.message event := by
  obtain ⟨other, equal, copies⟩ := (linked.keeps opening unique).log _ sent
  have ids := congrArg (·.item "event_id") equal
  simp only [Outbox.message_event_id, Except.ok.injEq, Json.str.injEq] at ids
  exact equal.trans (copies ((UUID.str_injective ids).symm.trans own))

theorem sent (linked : Linked w o c s) {topic : String} {document : Json}
    (sent : (topic, document) ∈ s.workers.world.log) :
    ∃ event ∈ s.ledger.world.db.events, document = Outbox.message event := by
  have unique : ∀ event ∈ s.ledger.world.db.events, ∀ other ∈ s.ledger.world.db.events,
      other.eventId = event.eventId → other = event :=
    fun event member other listed own =>
      List.inj_on_of_nodup_map (linked.consistent opening).eventIds listed member own
  obtain ⟨row, rfl⟩ : ∃ row, document = Outbox.message row := by
    cases listed : s.ledger.world.db.events with
    | nil =>
      have keeps : Outbox.World.Keeps (Outbox.createOutboxEvent 0 0 "" .null 0) s.workers.world :=
        linked.keeps opening (by simp [listed])
      obtain ⟨row, same, _⟩ := keeps.log _ sent
      exact ⟨row, same⟩
    | cons event rest =>
      have keeps := linked.keeps opening (unique event (by simp [listed]))
      obtain ⟨row, same, _⟩ := keeps.log _ sent
      exact ⟨row, same⟩
  by_cases posted : ∃ event ∈ s.ledger.world.db.events, event.eventId = row.eventId
  · obtain ⟨event, member, same⟩ := posted
    exact ⟨event, member, linked.sent_eq opening sent same.symm (unique event member)⟩
  · -- an event that was never posted may have any type
    have typed : ∀ eventType : String, row.eventType = eventType := by
      intro eventType
      have equal : Outbox.message row = Outbox.message { row with eventType := eventType } :=
        linked.sent_eq opening sent rfl fun other listed own => absurd ⟨other, listed, own⟩ posted
      have types := congrArg (·.item "event_type") equal
      simpa using types
    exact absurd ((typed "a").symm.trans (typed "b")) (by decide)

theorem ledger_step (linked : Linked w o c s) {a : Concurrency.Action (Ledger.machine env)}
    {u : Concurrency.State (Ledger.machine env)} (stepped : (Ledger.machine env).step s.ledger a = some u) :
    Linked w o c { s with
      ledger := u
      workers := post ((u.world : Ledger.World).db.events.drop
          (s.ledger.world : Ledger.World).db.events.length) s.workers } := by
  have ledger := linked.ledger.tail ⟨a, trivial, stepped⟩
  rcases events_of_step (Ledger.covers_all opening.ledger linked.ledger) stepped with
    same | ⟨event, grown, fresh, eventId, aggregateId, eventType, payload, createdAt, rfl⟩
  · have none : post ((u.world : Ledger.World).db.events.drop
      (s.ledger.world : Ledger.World).db.events.length) s.workers =
        s.workers := by
      rw [same, List.drop_length]
      rfl
    rw [none]
    exact ⟨ledger, fun A all => linked.workers A (same ▸ all), fun id member =>
      same ▸ linked.rows id member, linked.locks,
      fun events unique all => linked.consumers events unique (same ▸ all)⟩
  · rw [show (u.world : Ledger.World).db.events = _ from grown, List.drop_left]
    have unused : eventId ∉ s.workers.world.events.rows := fun member => fresh (linked.rows eventId member)
    have unlocked : s.workers.world.events.locks eventId = none :=
      by_contra fun locked => unused (linked.locks eventId locked)
    have posted : Outbox.machine.step s.workers (.tick (.post eventId aggregateId eventType payload createdAt)) =
        some (post [Outbox.createOutboxEvent eventId aggregateId eventType payload createdAt] s.workers) := by
      have free : ¬(eventId ∈ s.workers.world.events.rows ∨ s.workers.world.events.locks eventId ≠ none) := by
        rintro (member | locked)
        · exact unused member
        · exact locked unlocked
      have ticked : Outbox.World.tick (.post eventId aggregateId eventType payload createdAt) s.workers.world =
          some (post [Outbox.createOutboxEvent eventId aggregateId eventType payload createdAt]
            s.workers).world := if_neg free
      exact Machine.step_tick ticked
    refine ⟨ledger, fun A all => ?_, fun id member => ?_, fun id locked => ?_, fun events unique all => ?_⟩
    · have before := linked.workers A fun old member => all old (by rw [grown]; exact List.mem_append_left _ member)
      apply before.tail ⟨_, ?_, posted⟩
      intro id aggregateId' eventType' payload' createdAt' same
      cases same
      exact all _ (by rw [grown]; exact List.mem_append_right _ List.mem_cons_self)
    · rw [grown, List.map_append]
      rcases (AList.mem_insert _).1 member with rfl | old
      · exact List.mem_append_right _ List.mem_cons_self
      · exact List.mem_append_left _ (linked.rows id old)
    · exact (AList.mem_insert _).2 (.inr (linked.locks id locked))
    · exact linked.consumers events unique fun old member =>
        all old (by rw [grown]; exact List.mem_append_left _ member)

theorem workers_step (linked : Linked w o c s) {a : Concurrency.Action Outbox.machine}
    {u : Concurrency.State Outbox.machine}
    (own : Outbox.isOwn a) (stepped : Outbox.machine.step s.workers a = some u) :
    Linked w o c { s with workers := u } := by
  obtain ⟨locks, same⟩ := Outbox.rows_of_step (linked.covers opening) linked.locks own stepped
  refine { linked with workers := fun A all => ?_, rows := fun id member => ?_, locks := locks }
  · apply (linked.workers A all).tail ⟨a, ?_, stepped⟩
    rintro id aggregateId eventType payload createdAt rfl
    cases own
  · exact linked.rows id ((same id).1 member)

theorem consumers_step (linked : Linked w o c s) {a : Concurrency.Action Consumers.machine}
    {u : Concurrency.State Consumers.machine} (handed : delivered s.workers.world a)
    (stepped : Consumers.machine.step s.consumers a = some u) : Linked w o c { s with consumers := u } := by
  refine { linked with consumers := fun events unique all => ?_ }
  apply (linked.consumers events unique all).tail ⟨a, ?_, stepped⟩
  rintro p message rfl eventId identified
  have sent : (message.topic, message.value) ∈ s.workers.world.log := by simpa [delivered] using handed
  obtain ⟨event, member, carried⟩ := linked.sent opening sent
  rw [carried, Consumers.eventIdOf_message, Except.ok.injEq] at identified
  rw [carried, ← identified, content_of_mem unique (all event member)]

theorem of_runs (runs : Runs (initial env w o c) s) : Linked w o c s := by
  induction runs with
  | refl => exact linked_of_opening opening
  | tail _ stepped ih =>
    obtain ⟨a, stepped⟩ := stepped
    rcases step_cases stepped with ⟨b, u, moved, rfl⟩ | ⟨b, u, own, moved, rfl⟩ |
      ⟨b, u, handed, moved, rfl⟩
    · exact ih.ledger_step opening moved
    · exact ih.workers_step opening own moved
    · exact ih.consumers_step opening handed moved

end Linked

section Entries
variable {db : Tables} {request : Request} {P : Posting} {rows : Tables} {processed : Finset UUID} {x : UUID}

/-- A decoded event adds to an account, other than the system account, what the ledger has entered on it. -/
theorem delta_of_posted (posted : PostedBy env db request P) {changes : List (UUID × Decimal.Number)}
    (decoded : Consumers.deltas (Outbox.message P.event) = .ok changes) (ordinary : ¬db.IsSystemCash x) :
    Consumers.delta (Outbox.message P.event) x = (P.rows.balance x : ℤ) := by
  rw [Posting.balance_rows]
  cases posted with
  | deposit account system amount transaction debit credit eventId eventAt found active cash isCash typed
      keyless stored =>
    have other : system.accountId ≠ x := fun same => ordinary ⟨system, cash, same, isCash⟩
    rw [Consumers.delta_ok (Consumers.deltas_deposit rfl rfl), if_neg other, zero_add]
    by_cases same : account.accountId = x
    · rw [if_pos same, same, Consumers.sumOn_singleton_self, Numeric.cast_unscaled stored.credited]
      rfl
    · rw [if_neg same, Consumers.sumOn_singleton_ne same]
      rfl
  | withdrawal account system amount transaction debit credit eventId eventAt total found active cash isCash
      typed keyless stored =>
    have other : system.accountId ≠ x := fun same => ordinary ⟨system, cash, same, isCash⟩
    obtain ⟨negated, negation, debited⟩ := stored.debited
    rw [Consumers.delta_ok (Consumers.deltas_withdrawal rfl rfl negation), if_neg other, add_zero]
    by_cases same : account.accountId = x
    · rw [if_pos same, same, Consumers.sumOn_singleton_self, Numeric.cast_unscaled debited]
      rfl
    · rw [if_neg same, Consumers.sumOn_singleton_ne same]
      rfl
  | transfer =>
    rw [Consumers.deltas_transfer rfl rfl] at decoded
    cases decoded

theorem aggregate_of_whole (whole : db.Whole) (member : event ∈ db.events) :
    event.aggregateId ∈ db.transactions.map (·.transactionId) := by
  have listed := whole.events.mem_iff.1 (List.mem_map_of_mem member)
  obtain ⟨transaction, member', same⟩ := List.mem_map.1 listed
  rw [Prod.mk.injEq] at same
  rw [← same.1]
  exact List.mem_map_of_mem member'

theorem shown_post (whole : db.Whole) (posted : PostedBy env db request P)
    (fresh : P.transaction.transactionId ∉ db.ids) : shown (db ++ P.rows) processed x =
      shown db processed x + if P.event.eventId ∈ processed then P.rows.balance x else 0 := by
  have absent := Tables.not_mem_transactions fresh
  have own := posted.announced.1
  have old : ∀ entry ∈ db.entries, (entry.accountId = x ∧ ∃ event ∈ (db ++ P.rows).events,
      event.aggregateId = entry.transactionId ∧ event.eventId ∈ processed) ↔
      entry.accountId = x ∧ ∃ event ∈ db.events, event.aggregateId = entry.transactionId ∧
        event.eventId ∈ processed := by
    intro entry member
    have other : P.event.aggregateId ≠ entry.transactionId := by
      intro same
      apply absent
      rw [← own, same]
      exact whole.entries entry member
    simp [Posting.rows, or_and_right, exists_or, other]
  have new : ∀ entry ∈ P.rows.entries, (entry.accountId = x ∧ ∃ event ∈ (db ++ P.rows).events,
      event.aggregateId = entry.transactionId ∧ event.eventId ∈ processed) ↔
      entry.accountId = x ∧ P.event.eventId ∈ processed := by
    intro entry member
    have tied : entry.transactionId = P.transaction.transactionId := by
      rcases List.mem_pair.1 member with rfl | rfl <;> rfl
    have others : ∀ event ∈ db.events, event.aggregateId ≠ P.transaction.transactionId := by
      intro event listed same
      exact absent (same ▸ aggregate_of_whole whole listed)
    rw [tied]
    constructor
    · rintro ⟨entered, event, listed, same, counted⟩
      rcases List.mem_append.1 listed with earlier | latest
      · exact absurd same (others event earlier)
      · rw [List.mem_singleton.1 latest] at counted
        exact ⟨entered, counted⟩
    · intro own_entry
      exact ⟨own_entry.1, P.event, List.mem_append_right _ List.mem_cons_self, own, own_entry.2⟩
  have added : P.rows.entries.filter (fun entry => entry.accountId = x ∧ ∃ event ∈ (db ++ P.rows).events,
      event.aggregateId = entry.transactionId ∧ event.eventId ∈ processed) =
      if P.event.eventId ∈ processed then P.rows.entries.filter (·.accountId = x) else [] := by
    split_ifs with counted
    · exact List.filter_congr fun entry member =>
        decide_eq_decide.2 ((new entry member).trans (and_iff_left counted))
    · exact List.filter_eq_nil_iff.2 fun entry member holds =>
        counted ((new entry member).1 (of_decide_eq_true holds)).2
  rw [shown, Tables.append_entries, List.filter_append, List.map_append, List.sum_append, added,
    List.filter_congr fun entry member => decide_eq_decide.2 (old entry member)]
  apply congrArg
  split_ifs with counted
  · simp [Tables.balance, Tables.amounts, Function.comp_def]
  · rfl

/-- The changes that the processed events ask for come to their transactions' entries. -/
def Accounted (db : Tables) : Prop :=
  db.Whole ∧ ∀ processed x, ¬db.IsSystemCash x → (∀ event ∈ db.events, event.eventId ∈ processed →
      ∃ changes, Consumers.deltas (Outbox.message event) = .ok changes) →
    ((db.events.filter (·.eventId ∈ processed)).map fun event => Consumers.delta (Outbox.message event) x).sum =
      (shown db processed x : ℤ)

theorem accounted_commit (consistent : db.Consistent) (accounted : Accounted db)
    (commits : Commits env db request rows) : Accounted (db ++ rows) := by
  refine ⟨commits.whole consistent accounted.1, fun processed x ordinary decodes => ?_⟩
  have before := accounted.2 processed x (fun cash => ordinary cash.append)
    fun event member => decodes event (List.mem_append_left _ member)
  cases commits with
  | opens => simpa [shown] using before
  | posts P posted fresh =>
    rw [shown_post accounted.1 posted fresh, Tables.append_events, List.filter_append, List.map_append,
      List.sum_append, before]
    by_cases counted : P.event.eventId ∈ processed
    · obtain ⟨changes, decoded⟩ := decodes P.event (List.mem_append_right _ List.mem_cons_self) counted
      have single : P.rows.events.filter (·.eventId ∈ processed) = [P.event] := by simp [Posting.rows, counted]
      rw [single, if_pos counted, List.map_singleton, List.sum_singleton,
        delta_of_posted posted decoded fun cash => ordinary cash.append, WithTop.coe_add]
    · have none : P.rows.events.filter (·.eventId ∈ processed) = [] := by simp [Posting.rows, counted]
      rw [none, if_neg counted]
      rfl

end Entries

/-- The projection shows the entries of the processed transactions, and only committed events are processed. -/
structure ShowsLedger (s : State env) : Prop where
  balances : ∀ x, ¬s.ledger.world.db.IsSystemCash x →
    Consumers.projected x s.consumers.world =
      (shown s.ledger.world.db (Consumers.registered s.consumers.world) x : ℤ)
  events : ∀ eventId ∈ Consumers.registered s.consumers.world, ∃ event ∈ s.ledger.world.db.events,
      event.eventId = eventId

theorem accounted_of_linked (opening : Opening w o c) (linked : Linked w o c s) : Accounted s.ledger.world.db := by
  have start : Accounted w.db := by
    refine ⟨⟨?_, ?_, ?_, ?_⟩, fun processed x _ _ => ?_⟩ <;>
      simp [opening.transactions, opening.events, opening.entries, shown]
  exact kept_of_runs opening.ledger start
    (fun _ _ _ _ _ _ _ commits consistent accounted => accounted_commit consistent accounted commits) linked.ledger

theorem shows_ledger (opening : Opening w o c) (runs : Runs (initial env w o c) s) : ShowsLedger s := by
  have linked := Linked.of_runs opening runs
  have unique := (linked.consistent opening).eventIds
  have delivering := linked.consumers s.ledger.world.db.events unique fun _ member => member
  have unregistered : Consumers.registered c = ∅ := by simp [Consumers.registered, opening.processed]
  have start : Consumers.Exact (content s.ledger.world.db.events) c := by
    intro x
    simp [Consumers.projected, unregistered, opening.projections]
  have exact_ := Consumers.exact_of_runs opening.consumers start delivering
  have decodes := Consumers.decoded_of_runs opening.consumers unregistered delivering
  have known : ∀ eventId ∈ Consumers.registered s.consumers.world, ∃ event ∈ s.ledger.world.db.events,
      event.eventId = eventId := by
    intro eventId member
    obtain ⟨changes, decoded⟩ := decodes eventId member
    exact mem_of_content decoded
  refine ⟨fun x ordinary => ?_, known⟩
  generalize processed : Consumers.registered s.consumers.world = ids at exact_ known decodes ⊢
  have listed : ids = ((s.ledger.world.db.events.filter (·.eventId ∈ ids)).map (·.eventId)).toFinset := by
    ext id
    simp only [List.mem_toFinset, List.mem_map, List.mem_filter, decide_eq_true_eq]
    constructor
    · intro member
      obtain ⟨event, posted, same⟩ := known id member
      exact ⟨event, ⟨posted, same ▸ member⟩, same⟩
    · rintro ⟨event, ⟨_, member⟩, rfl⟩
      exact member
  have once : ((s.ledger.world.db.events.filter (·.eventId ∈ ids)).map (·.eventId)).Nodup :=
    unique.sublist (List.filter_sublist.map _)
  calc Consumers.projected x s.consumers.world
      = ∑ id ∈ ids, Consumers.delta (content s.ledger.world.db.events id) x := by
        rw [exact_ x, processed]
    _ = ((s.ledger.world.db.events.filter (·.eventId ∈ ids)).map fun event =>
          Consumers.delta (content s.ledger.world.db.events event.eventId) x).sum := by
        conv_lhs => rw [listed]
        rw [List.sum_toFinset _ once, List.map_map]
        rfl
    _ = ((s.ledger.world.db.events.filter (·.eventId ∈ ids)).map fun event =>
          Consumers.delta (Outbox.message event) x).sum := by
        apply congrArg
        apply List.map_congr_left
        intro event member
        rw [content_of_mem unique (List.mem_filter.1 member).1]
    _ = (shown s.ledger.world.db ids x : ℤ) := by
        apply (accounted_of_linked opening linked).2 ids x ordinary
        intro event member counted
        rw [← content_of_mem unique member]
        exact decodes event.eventId counted

def emptyOutbox : Outbox.World where
  events := { rows := ∅, drafts := fun _ => ∅, locks := fun _ => none }
  clock := 0
  log := []

theorem sample_opening : Opening newBank emptyOutbox Consumers.emptyTables where
  ledger := newBank_opening
  transactions := rfl
  entries := rfl
  events := rfl
  workers := ⟨⟨fun _ => rfl, fun _ => rfl⟩, fun _ _ stored => by cases stored⟩
  outbox := rfl
  topic := rfl
  consumers := Consumers.emptyTables_opening
  processed := rfl
  projections := rfl

def depositAlong : List (Action sample) :=
  (deposit 0 oneRupee).map .ledger ++ Consumers.publish.map .workers ++
    ((.start 0 (⟨"ledger-events", 0, 0, Outbox.message Consumers.pocketMoney.event⟩ : Consumers.Message)) ::
      Consumers.steps [0, 0, 0, 0, 0, 0]).map .consumers

theorem shows_ledger_sample : ∃ s : State sample, Consumers.registered s.consumers.world = {11} ∧
    Consumers.projected 2 s.consumers.world = (100 : ℤ) ∧ ShowsLedger s := by
  have executed : (depositAlong.foldlM step (initial sample newBank emptyOutbox Consumers.emptyTables)).map
      (fun s => decide (Consumers.registered s.consumers.world = {11} ∧
        Consumers.projected 2 s.consumers.world = (100 : ℤ))) = some true := by
    decide +kernel
  obtain ⟨s, reached, observed⟩ := Option.map_eq_some_iff.1 executed
  obtain ⟨processed, projected⟩ := of_decide_eq_true observed
  exact ⟨s, processed, projected, shows_ledger sample_opening (reaches_of_actions reached)⟩

end LedgerFlow.Pipeline
