import LedgerFlow.Pipeline.Stream
import LedgerFlow.Text.Json

/-! The system with bytes in the topic, as `value_serializer` writes them and `value_deserializer` reads them.
It has the runs of the system whose topic holds the documents themselves. -/

namespace LedgerFlow.Pipeline
open Concurrency Ledger

abbrev Bytes := List UInt8

/-- `value_serializer`: `json.dumps(value).encode("utf-8")`. -/
def serialize (document : Json) : Bytes := document.dumps.toUTF8.data.toList

/-- `value_deserializer`: `json.loads(value.decode("utf-8"))`. -/
def deserialize (value : Bytes) : Option Json := (String.fromUTF8? ⟨value.toArray⟩).bind Json.loads

theorem deserialize_serialize {document : Json} (wellFormed : document.WellFormed) :
    deserialize (serialize document) = some document := by
  have valid : document.dumps.toUTF8.IsValidUTF8 := document.dumps.isValidUTF8
  have decoded : String.fromUTF8? document.dumps.toUTF8 = some document.dumps := dif_pos valid
  unfold deserialize serialize
  rw [Array.toArray_toList]
  exact (congrArg (Option.bind · Json.loads) decoded).trans (Json.loads_dumps wellFormed)

structure Wire (env : Deployment) where
  state : State env
  topic : List (String × Bytes)
  raised : Bool

namespace Wire

inductive Action (env : Deployment) where
  | ledger (a : Concurrency.Action (Ledger.machine env))
  | workers (a : Concurrency.Action Outbox.machine)
  | receive (p : ℕ) (topic : String) (partition offset : ℕ) (value : Bytes)
  | consumers (a : Concurrency.Action Consumers.machine)

variable {env : Deployment}

def isStart : Concurrency.Action Consumers.machine → Bool
  | .start _ _ => true
  | _ => false

def onWire (log : List (String × Json)) : List (String × Bytes) := log.map fun message =>
    (message.1, serialize message.2)

def step (s : Wire env) : Action env → Option (Wire env)
  | .ledger a => (Pipeline.step s.state (.ledger a)).map fun state => { s with state }
  | .workers a => (Pipeline.step s.state (.workers a)).map fun state =>
      { s with
        state
        topic := s.topic ++
          onWire ((state.workers.world : Outbox.World).log.drop (s.state.workers.world : Outbox.World).log.length) }
  | .receive p topic partition offset value =>
    if (topic, value) ∈ s.topic then
      match deserialize value with
      | none => some { s with raised := true }
      | some document =>
        (Consumers.machine.step s.state.consumers
          (.start p (⟨topic, partition, offset, document⟩ : Consumers.Message))).map
          fun consumers => { s with state := { s.state with consumers } }
    else none
  | .consumers a =>
    if isStart a then none
    else (Pipeline.step s.state (.consumers a)).map fun state => { s with state }

abbrev Runs : Wire env → Wire env → Prop := Relation.ReflTransGen fun s t => ∃ a, step s a = some t

def carry (s : State env) : Wire env := ⟨s, onWire (s.workers.world : Outbox.World).log, false⟩

variable {w : Ledger.World} {o : Outbox.World} {c : Consumers.World} {s t : Wire env} {u v : State env}

/-! The documents of the system are well formed. -/

theorem wellFormed_message {event : Outbox.OutboxEvent} (payload : event.payload.WellFormed) :
    (Outbox.message event).WellFormed := by
  apply Json.WellFormed.obj
  · change ["event_id", "aggregate_id", "event_type", "event_version", "payload", "created_at"].Nodup
    decide
  · intro entry member
    simp only [List.mem_cons, List.not_mem_nil, or_false] at member
    rcases member with rfl | rfl | rfl | rfl | rfl | rfl
    · exact .str _
    · exact .str _
    · exact .str _
    · exact .int _
    · exact payload
    · exact .str _

theorem wellFormed_strings {fields : List (String × Json)} (keys : List String) (named : fields.map Prod.fst = keys)
    (distinct : keys.Nodup) (strings : ∀ entry ∈ fields, ∃ text, entry.2 = .str text) :
    (Json.obj fields).WellFormed := by
  apply Json.WellFormed.obj
  · exact named ▸ distinct
  · intro entry member
    obtain ⟨text, same⟩ := strings entry member
    rw [same]
    exact .str text

/-- The payloads of the ledger are well formed. -/
def Readable (db : Tables) : Prop := ∀ event ∈ db.events, event.payload.WellFormed

theorem wellFormed_accountPayload (transaction : Transaction) (account : Accounts.Account) (amount : Decimal) :
    (accountPayload transaction account amount).WellFormed := by
  apply wellFormed_strings ["transaction_id", "account_id", "amount", "currency"] rfl (by decide)
  intro entry member
  simp only [List.mem_cons, List.not_mem_nil, or_false] at member
  rcases member with rfl | rfl | rfl | rfl <;> exact ⟨_, rfl⟩

theorem wellFormed_transferPayload (transaction : Transaction) (fromAccountId toAccountId : UUID) (amount : Decimal)
    (currency : String) : (transferPayload transaction fromAccountId toAccountId amount currency).WellFormed := by
  apply wellFormed_strings ["transaction_id", "from_account_id", "to_account_id", "amount", "currency"]
    rfl (by decide)
  intro entry member
  simp only [List.mem_cons, List.not_mem_nil, or_false] at member
  rcases member with rfl | rfl | rfl | rfl | rfl <;> exact ⟨_, rfl⟩

theorem readable_posting {db : Tables} {request : Request} {P : Posting} (posted : PostedBy env db request P) :
    P.event.payload.WellFormed := by
  cases posted with
  | deposit => exact wellFormed_accountPayload ..
  | withdrawal => exact wellFormed_accountPayload ..
  | transfer => exact wellFormed_transferPayload ..

theorem readable_of_linked (opening : Opening w o c) {s : State env} (linked : Linked w o c s) :
    Readable s.ledger.world.db := by
  have start : Readable w.db := by
    intro event member
    rw [opening.events] at member
    cases member
  apply kept_of_runs opening.ledger start _ linked.ledger
  intro s a p request rows _ _ commits consistent readable event member
  rcases List.mem_append.1 member with old | new
  · exact readable event old
  · cases commits with
    | opens => cases new
    | posts P posted =>
      rw [List.mem_singleton.1 new]
      exact readable_posting posted

theorem read_back (opening : Opening w o c) (runs : Pipeline.Runs (initial env w o c) u) {topic : String}
    {document : Json}
    (sent : (topic, document) ∈ (u.workers.world : Outbox.World).log) :
    deserialize (serialize document) = some document := by
  have linked := Linked.of_runs opening runs
  obtain ⟨event, posted, rfl⟩ := linked.sent opening sent
  exact deserialize_serialize (wellFormed_message (readable_of_linked opening linked event posted))

/-! The two systems have the same runs. -/

theorem onWire_grown {log log' : List (String × Json)} (grown : log <+: log') :
    onWire log ++ onWire (log'.drop log.length) = onWire log' := by
  obtain ⟨more, rfl⟩ := grown
  rw [List.drop_left]
  exact List.map_append.symm

/-- What the bytes do not change. -/
structure Carries (w : Ledger.World) (o : Outbox.World) (c : Consumers.World) (s : Wire env) : Prop where
  runs : Pipeline.Runs (initial env w o c) s.state
  topic : s.topic = onWire (s.state.workers.world : Outbox.World).log
  read : s.raised = false

theorem log_of_workers {a : Concurrency.Action Outbox.machine} (stepped : Pipeline.step u (.workers a) = some v) :
    (u.workers.world : Outbox.World).log <+: (v.workers.world : Outbox.World).log := by
  simp only [Pipeline.step] at stepped
  split_ifs at stepped
  split at stepped
  · cases stepped
  · rename_i moved
    cases stepped
    exact Stream.log_of_step moved

theorem log_of_others {a : Pipeline.Action env} (stepped : Pipeline.step u a = some v)
    (others : ∀ b, a ≠ .workers b) :
    (v.workers.world : Outbox.World).log = (u.workers.world : Outbox.World).log := by
  cases a with
  | workers b => exact absurd rfl (others b)
  | ledger b =>
    simp only [Pipeline.step] at stepped
    split at stepped
    · cases stepped
    · cases stepped
      rfl
  | consumers b =>
    simp only [Pipeline.step] at stepped
    split_ifs at stepped
    split at stepped
    · cases stepped
    · cases stepped
      rfl

theorem Carries.others {a : Pipeline.Action env} (carries : Carries w o c s)
    (moved : Pipeline.step s.state a = some v)
    (others : ∀ b, a ≠ .workers b) : Carries w o c { s with state := v } where
  runs := carries.runs.tail ⟨_, moved⟩
  topic := carries.topic.trans (congrArg onWire (log_of_others moved others).symm)
  read := carries.read

theorem Carries.step (opening : Opening w o c) {a : Action env} (carries : Carries w o c s)
    (stepped : step s a = some t) : Carries w o c t := by
  cases a with
  | ledger a =>
    obtain ⟨v, moved, rfl⟩ := Option.map_eq_some_iff.1 stepped
    exact carries.others moved fun _ same => by cases same
  | workers a =>
    obtain ⟨v, moved, rfl⟩ := Option.map_eq_some_iff.1 stepped
    have grown := onWire_grown (log_of_workers moved)
    rw [← carries.topic] at grown
    exact ⟨carries.runs.tail ⟨_, moved⟩, grown, carries.read⟩
  | receive p topic partition offset value =>
    simp only [Wire.step] at stepped
    split_ifs at stepped with held
    rw [carries.topic] at held
    obtain ⟨⟨topic', sent⟩, listed, same⟩ := List.mem_map.1 held
    obtain ⟨rfl, rfl⟩ := Prod.mk.inj same
    have read := read_back opening carries.runs listed
    split at stepped
    · rename_i unread
      cases read.symm.trans unread
    · rename_i document decoded
      obtain ⟨consumers, moved, rfl⟩ := Option.map_eq_some_iff.1 stepped
      -- the bytes are those of one document only
      cases read.symm.trans decoded
      have handed : delivered s.state.workers.world
          (.start p (⟨topic', partition, offset, sent⟩ : Consumers.Message)) = true :=
        decide_eq_true listed
      have stepped : Pipeline.step s.state
          (.consumers (.start p (⟨topic', partition, offset, sent⟩ : Consumers.Message))) =
          some { s.state with consumers } := by
        simp only [Pipeline.step, if_pos handed]
        rw [moved]
      exact ⟨carries.runs.tail ⟨_, stepped⟩, carries.topic, carries.read⟩
  | consumers a =>
    simp only [Wire.step] at stepped
    split_ifs at stepped
    obtain ⟨v, moved, rfl⟩ := Option.map_eq_some_iff.1 stepped
    exact carries.others moved fun _ same => by cases same

theorem step_carry (opening : Opening w o c) (runs : Pipeline.Runs (initial env w o c) u) {a : Pipeline.Action env}
    (stepped : Pipeline.step u a = some v) : ∃ b, step (carry u) b = some (carry v) := by
  cases a with
  | ledger a =>
    have log := log_of_others stepped fun _ same => by cases same
    refine ⟨.ledger a, ?_⟩
    simp only [step, carry, stepped, Option.map_some, log]
  | workers a =>
    refine ⟨.workers a, ?_⟩
    simp only [step, carry, stepped, Option.map_some, onWire_grown (log_of_workers stepped)]
  | consumers a =>
    have log := log_of_others stepped fun _ same => by cases same
    by_cases starts : isStart a
    · cases a with
      | start p message =>
        simp only [Pipeline.step] at stepped
        split_ifs at stepped with handed
        split at stepped
        · cases stepped
        · rename_i consumers moved
          cases stepped
          have listed : ((message : Consumers.Message).topic, (message : Consumers.Message).value) ∈
              (u.workers.world : Outbox.World).log := of_decide_eq_true handed
          have held : ((message : Consumers.Message).topic, serialize (message : Consumers.Message).value) ∈
              (carry u).topic :=
            List.mem_map.2 ⟨_, listed, rfl⟩
          refine ⟨.receive p (message : Consumers.Message).topic (message : Consumers.Message).partition
            (message : Consumers.Message).offset (serialize (message : Consumers.Message).value), ?_⟩
          simp only [step, if_pos held, read_back opening runs listed]
          exact congrArg (Option.map _) moved
      | _ => cases starts
    · refine ⟨.consumers a, ?_⟩
      simp only [step, if_neg starts, carry, stepped, Option.map_some, log]

/-- With bytes on the wire the system has the runs that it has with documents: every message is read as it was
sent, and no consumer ever fails to read one. -/
theorem same_runs (opening : Opening w o c) : Runs (carry (initial env w o c)) s ↔ Carries w o c s := by
  constructor
  · intro runs
    induction runs with
    | refl => exact ⟨.refl, rfl, rfl⟩
    | tail _ stepped ih =>
      obtain ⟨a, stepped⟩ := stepped
      exact ih.step opening stepped
  · intro carries
    have same : carry s.state = s := by
      unfold carry
      rw [← carries.topic, ← carries.read]
    have followed : ∀ {v}, Pipeline.Runs (initial env w o c) v → Runs (carry (initial env w o c)) (carry v) := by
      intro v runs
      induction runs with
      | refl => exact .refl
      | tail earlier stepped ih =>
        obtain ⟨a, stepped⟩ := stepped
        obtain ⟨b, stepped⟩ := step_carry opening earlier stepped
        exact ih.tail ⟨b, stepped⟩
    exact same ▸ followed carries.runs

theorem same_runs_sample : ∃ s : Wire sample,
    Runs (carry (initial sample newBank emptyOutbox Consumers.emptyTables)) s ∧
    s.topic.length = 1 ∧ Consumers.registered s.state.consumers.world = {11} := by
  have executed : (depositAlong.foldlM Pipeline.step (initial sample newBank emptyOutbox Consumers.emptyTables)).map
      (fun s => decide ((s.workers.world : Outbox.World).log.length = 1 ∧
        Consumers.registered s.consumers.world = {11})) = some true := by
    decide +kernel
  obtain ⟨u, reached, observed⟩ := Option.map_eq_some_iff.1 executed
  obtain ⟨published, processed⟩ := of_decide_eq_true observed
  have length : (carry u).topic.length = 1 := (List.length_map _).trans published
  exact ⟨carry u, (same_runs sample_opening).2 ⟨reaches_of_actions reached, rfl, rfl⟩, length, processed⟩

end Wire
end LedgerFlow.Pipeline
