import LedgerFlow.Consumers.Acknowledgement

/-! `LedgerEventConsumer.run`: one consumer at a time takes the messages of the topic, those of each partition
in their order. The exception of a call ends it, and the consumer that is started next reads on from the
committed offsets. -/

namespace LedgerFlow.Consumers
open Concurrency

structure Reader where
  calls : State machine
  log : ℕ → List Json
  /-- The offset that the consumer takes next from each partition. -/
  position : ℕ → ℕ
  current : Option ℕ

/-- The committed offset; the consumer starts at the earliest message where there is none. -/
def committed (partition : ℕ) (w : World) : ℕ := (w.offsets (Outbox.kafkaLedgerTopic, partition)).getD 0

def returned : Code Unit → Bool
  | .ret () => true
  | _ => false

def isStart : Concurrency.Action machine → Bool
  | .start _ _ => true
  | _ => false

namespace Reader

inductive Action where
  /-- An outbox worker publishes an event, for the first time or again. -/
  | publish (partition : ℕ) (event : Outbox.OutboxEvent)
  | fetch (p partition : ℕ)
  | call (a : Concurrency.Action machine)
  /-- After an exception, a crash or `stop` a consumer is started. -/
  | restart

def Waiting (s : Reader) : Prop := ∀ p ∈ s.current, ∀ proc ∈ s.calls.procs p, returned proc.rest

def Stopped (s : Reader) : Prop := ∀ p ∈ s.current, ∀ proc ∈ s.calls.procs p, proc.rest.Finished

instance (s : Reader) : Decidable s.Waiting :=
  inferInstanceAs (Decidable (∀ p ∈ s.current, ∀ proc ∈ s.calls.procs p, _))

instance (s : Reader) : Decidable s.Stopped :=
  inferInstanceAs (Decidable (∀ p ∈ s.current, ∀ proc ∈ s.calls.procs p, _))

def step (s : Reader) : Action → Option Reader
  | .publish partition event =>
    some { s with log := Function.update s.log partition (s.log partition ++ [Outbox.message event]) }
  | .fetch p partition =>
    match (s.log partition)[s.position partition]? with
    | none => none
    | some value =>
      if s.Waiting then
        match machine.step s.calls (.start p
          (⟨Outbox.kafkaLedgerTopic, partition, s.position partition, value⟩ : Message)) with
        | none => none
        | some calls =>
          some { s with
            calls
            position := Function.update s.position partition (s.position partition + 1)
            current := some p }
      else none
  | .call a =>
    if isStart a then none
    else
      match machine.step s.calls a with
      | none => none
      | some calls => some { s with calls }
  | .restart =>
    if s.Stopped then
      some { s with position := fun partition => committed partition s.calls.world, current := none }
    else none

abbrev Runs : Reader → Reader → Prop := Relation.ReflTransGen fun s t => ∃ a, step s a = some t

structure Opening (s : Reader) : Prop where
  calls : s.calls = machine.initial s.calls.world
  world : World.Opening s.calls.world
  offsets : ∀ partition, committed partition s.calls.world = 0
  log : ∀ partition, ∀ value ∈ s.log partition, ∃ event, value = Outbox.message event
  position : ∀ partition, s.position partition = 0
  current : s.current = none

variable {s t : Reader}

theorem step_fetch {p partition : ℕ} (stepped : s.step (.fetch p partition) = some t) :
    ∃ value calls, (s.log partition)[s.position partition]? = some value ∧ s.Waiting ∧
      machine.step s.calls (.start p
      (⟨Outbox.kafkaLedgerTopic, partition, s.position partition, value⟩ : Message)) = some calls ∧
      t = { s with
        calls
        position := Function.update s.position partition (s.position partition + 1)
        current := some p } := by
  simp only [step] at stepped
  split at stepped
  · cases stepped
  · rename_i value stored
    split_ifs at stepped with waiting
    split at stepped
    · cases stepped
    · rename_i calls started
      exact ⟨value, calls, stored, waiting, started, (Option.some.inj stepped).symm⟩

theorem step_call {a : Concurrency.Action machine} (stepped : s.step (.call a) = some t) :
    ∃ calls, isStart a = false ∧ machine.step s.calls a = some calls ∧ t = { s with calls } := by
  simp only [step] at stepped
  split_ifs at stepped with start
  split at stepped
  · cases stepped
  · rename_i calls moved
    exact ⟨calls, Bool.eq_false_of_not_eq_true start, moved, (Option.some.inj stepped).symm⟩

/-- Every message below the committed offset of its partition is registered. -/
def Settled (s : Reader) : Prop :=
  ∀ partition offset, offset < committed partition s.calls.world →
    ∃ value eventId, (s.log partition)[offset]? = some value ∧ eventIdOf value = .ok eventId ∧
      eventId ∈ registered s.calls.world

structure At (s : Reader) (message : Message) (acknowledged : Bool) : Prop where
  topic : message.topic = Outbox.kafkaLedgerTopic
  stored : (s.log message.partition)[message.offset]? = some message.value
  position : s.position message.partition = message.offset + 1
  committed : committed message.partition s.calls.world = message.offset + acknowledged.toNat
  elsewhere : ∀ partition, partition ≠ message.partition →
      s.position partition = Consumers.committed partition s.calls.world

theorem At.caught_up {message : Message} (at_ : s.At message true) (partition : ℕ) :
    s.position partition = Consumers.committed partition s.calls.world := by
  by_cases same : partition = message.partition
  · subst same
    rw [at_.position, at_.committed]
    rfl
  · exact at_.elsewhere partition same

/-- What holds in every state: the consumer has come as far as it has acknowledged, but
for the message of its latest call. -/
structure Tracks (w : World) (s : Reader) (trace : List (Executed language)) : Prop where
  traces : machine.Traces Reading (machine.initial w) trace s.calls
  log : ∀ partition, ∀ value ∈ s.log partition, ∃ event, value = Outbox.message event
  settled : s.Settled
  idle : s.current = none → ∀ partition, s.position partition = committed partition s.calls.world
  busy : ∀ p ∈ s.current, ∃ proc, s.calls.procs p = some proc ∧
      s.At proc.request (handling.phase p trace).acknowledged
  others : ∀ p proc, s.calls.procs p = some proc → s.current ≠ some p → proc.rest.Finished

variable {w : World} {trace trace' : List (Executed language)} {calls : State machine}

theorem stored_append {log : List Json} {offset : ℕ} {value : Json} (stored : log[offset]? = some value)
    (added : Json) : (log ++ [added])[offset]? = some value := by
  obtain ⟨bound, _⟩ := List.getElem?_eq_some_iff.1 stored
  rw [List.getElem?_append_left bound]
  exact stored

theorem stored_publish {partition k offset : ℕ} {value added : Json} (stored : (s.log k)[offset]? = some value) :
    (Function.update s.log partition (s.log partition ++ [added]) k)[offset]? = some value := by
  by_cases same : k = partition
  · subst same
    rw [Function.update_self]
    exact stored_append stored added
  · rw [Function.update_of_ne same]
    exact stored

theorem Tracks.publish (tracks : s.Tracks w trace) (partition : ℕ) (event : Outbox.OutboxEvent) :
    Tracks w { s with log := Function.update s.log partition (s.log partition ++ [Outbox.message event]) } trace where
  traces := tracks.traces
  log k value member := by
    by_cases same : k = partition
    · subst same
      simp only [Function.update_self] at member
      rcases List.mem_append.1 member with earlier | new
      · exact tracks.log k value earlier
      · exact ⟨event, List.mem_singleton.1 new⟩
    · simp only [Function.update_of_ne same] at member
      exact tracks.log k value member
  settled k offset below := by
    obtain ⟨value, eventId, stored, same, member⟩ := tracks.settled k offset below
    exact ⟨value, eventId, stored_publish stored, same, member⟩
  idle := tracks.idle
  busy p current := by
    obtain ⟨proc, found, at_⟩ := tracks.busy p current
    exact ⟨proc, found, at_.topic, stored_publish at_.stored, at_.position, at_.committed, at_.elsewhere⟩
  others := tracks.others

theorem Tracks.caught_up (tracks : s.Tracks w trace) (waiting : s.Waiting) (partition : ℕ) :
    s.position partition = committed partition s.calls.world := by
  cases current : s.current with
  | none => exact tracks.idle current partition
  | some p =>
    obtain ⟨proc, found, at_⟩ := tracks.busy p current
    have ended := waiting p current proc found
    have follows := handles_of_traces tracks.traces found
    cases rest : proc.rest with
    | ret value =>
      rw [rest] at follows
      have acknowledged : (handling.phase p trace).acknowledged = true := follows
      rw [acknowledged] at at_
      exact at_.caught_up partition
    | raise error => simp [rest, returned] at ended
    | call stmt next => simp [rest, returned] at ended

theorem Tracks.fetch (tracks : s.Tracks w trace) {p partition : ℕ} {value : Json} (waiting : s.Waiting)
    (stored : (s.log partition)[s.position partition]? = some value)
    (started : machine.step s.calls (.start p
      (⟨Outbox.kafkaLedgerTopic, partition, s.position partition, value⟩ : Message)) =
      some calls) :
    Tracks w { s with
      calls
      position := Function.update s.position partition (s.position partition + 1)
      current := some p } trace := by
  have caught_up := tracks.caught_up waiting
  have published : FromWorker ⟨Outbox.kafkaLedgerTopic, partition, s.position partition, value⟩ :=
    tracks.log partition value (List.mem_of_getElem? stored)
  have reading : Reading s.calls (.start p
      (⟨Outbox.kafkaLedgerTopic, partition, s.position partition, value⟩ : Message)) := by
    intro q message same
    cases same
    exact published
  have traces := tracks.traces.tail reading started
  obtain ⟨fresh, rfl⟩ := Machine.step_start started
  refine ⟨traces, tracks.log, tracks.settled, fun absurd => (Option.some_ne_none _ absurd).elim, ?_, ?_⟩
  · rintro q current
    cases current
    refine ⟨_, Function.update_self .., rfl, stored, Function.update_self .., ?_, ?_⟩
    · rw [Protocol.phase_of_idle tracks.traces fresh]
      exact (caught_up partition).symm
    · intro k other
      exact (Function.update_of_ne other ..).trans (caught_up k)
  · intro q proc found other
    rcases Machine.found_update found with ⟨rfl, rfl⟩ | ⟨_, found⟩
    · exact absurd rfl other
    · by_cases current : s.current = some q
      · have ended := waiting q current proc found
        cases rest : proc.rest with
        | ret value => trivial
        | raise error => trivial
        | call stmt next => simp [rest, returned] at ended
      · exact tracks.others q proc found current

theorem Tracks.restart (tracks : s.Tracks w trace) (stopped : s.Stopped) :
    Tracks w { s with position := fun partition => committed partition s.calls.world, current := none } trace where
  traces := tracks.traces
  log := tracks.log
  settled := tracks.settled
  idle _ _ := rfl
  busy p current := by cases current
  others p proc found _ := by
    by_cases current : s.current = some p
    · exact stopped p current proc found
    · exact tracks.others p proc found current

theorem Tracks.others_step (tracks : s.Tracks w trace) {a : Concurrency.Action machine} (started : isStart a = false)
    (moved : machine.step s.calls a = some calls) (p : ℕ) (proc : Proc machine) (found : calls.procs p = some proc)
    (other : s.current ≠ some p) : proc.rest.Finished := by
  cases before : s.calls.procs p with
  | none =>
    have idle : calls.procs p = none := by
      apply Machine.procs_of_step moved before
      rintro request rfl
      cases started
    cases idle.symm.trans found
  | some proc' =>
    have finished := tracks.others p proc' before other
    rcases Machine.rest_cases moved before with same | ⟨_, _, running, _⟩
    · cases same.symm.trans found
      exact finished
    · exact absurd finished running

theorem Tracks.still (tracks : s.Tracks w trace) {a : Concurrency.Action machine} (started : isStart a = false)
    (moved : machine.step s.calls a = some calls) (traces : machine.Traces Reading (machine.initial w) trace' calls)
    (kept : registered s.calls.world ⊆ registered calls.world)
    (offsets : World.offsets calls.world = World.offsets s.calls.world)
    (acknowledged : ∀ p, (handling.phase p trace').acknowledged = (handling.phase p trace).acknowledged) :
    Tracks w { s with calls } trace' := by
  have same : ∀ partition, committed partition calls.world = committed partition s.calls.world := by
    intro partition
    unfold committed
    rw [offsets]
  refine ⟨traces, tracks.log, ?_, ?_, ?_, tracks.others_step started moved⟩
  · intro partition offset below
    obtain ⟨value, eventId, stored, own, member⟩ := tracks.settled partition offset (same partition ▸ below)
    exact ⟨value, eventId, stored, own, kept member⟩
  · intro idle partition
    exact (tracks.idle idle partition).trans (same partition).symm
  · intro p current
    obtain ⟨proc, found, at_⟩ := tracks.busy p current
    obtain ⟨after, found', request⟩ := Machine.request_of_step moved found
    refine ⟨after, found', ?_⟩
    rw [request, acknowledged]
    exact ⟨at_.topic, at_.stored, at_.position, (same _).trans at_.committed,
      fun k other => (at_.elsewhere k other).trans (same k).symm⟩

theorem committed_update {partition k offset : ℕ} {w w' : World}
    (offsets : w'.offsets = Function.update w.offsets (Outbox.kafkaLedgerTopic, partition) (some offset)) :
    committed k w' = if k = partition then offset else committed k w := by
  unfold committed
  rw [offsets]
  by_cases same : k = partition
  · rw [if_pos same, same, Function.update_self]
    rfl
  · rw [if_neg same, Function.update_of_ne fun equal => same (congrArg Prod.snd equal)]

theorem Tracks.acknowledge (opening : w.Opening) (tracks : s.Tracks w trace) {p : ℕ} {choice : Choice}
    {proc : Proc machine}
    (moved : machine.step s.calls (.step p choice) = some calls)
    (traces : machine.Traces Reading (machine.initial w) trace' calls)
    (found : s.calls.procs p = some proc) (current : s.current = some p) (running : Protocol.Open s.calls p)
    {topic : String} {partition offset : ℕ}
    (allows : (handling.phase p trace).Allows proc.request (.commitOffset topic partition offset))
    (kept : registered s.calls.world ⊆ registered calls.world)
    (acknowledged : (handling.phase p trace').acknowledged = true)
    (offsets : World.offsets calls.world = Function.update (World.offsets s.calls.world) (topic, partition)
      (some offset)) :
    Tracks w { s with calls } trace' ∧ ∀ k, committed k s.calls.world ≤ committed k calls.world := by
  obtain ⟨proc', found', at_⟩ := tracks.busy p current
  cases found.symm.trans found'
  obtain ⟨rfl, rfl, rfl, fresh, eventId, own, settled⟩ := allows
  have member := (knows_of_traces opening tracks.traces running).settled eventId settled
  rw [at_.topic] at offsets
  have before : committed proc.request.partition s.calls.world = proc.request.offset := by
    rw [at_.committed, fresh]
    rfl
  have after : ∀ k, committed k calls.world =
      if k = proc.request.partition then proc.request.offset + 1 else committed k s.calls.world :=
    fun k => committed_update offsets
  refine ⟨⟨traces, tracks.log, ?_, ?_, ?_, tracks.others_step rfl moved⟩, ?_⟩
  · intro k o below
    change o < committed k calls.world at below
    rw [after] at below
    -- the new message, or one below the old offset
    by_cases new : k = proc.request.partition ∧ o = proc.request.offset
    · obtain ⟨rfl, rfl⟩ := new
      exact ⟨_, eventId, at_.stored, own, kept member⟩
    · have below' : o < committed k s.calls.world := by
        split_ifs at below with same
        · have different : o ≠ proc.request.offset := fun equal => new ⟨same, equal⟩
          rw [same, before]
          omega
        · exact below
      obtain ⟨value, id, stored, named, member⟩ := tracks.settled k o below'
      exact ⟨value, id, stored, named, kept member⟩
  · intro absurd
    cases current.symm.trans absurd
  · intro q same
    cases current.symm.trans same
    obtain ⟨later, found'', request⟩ := Machine.request_of_step moved found
    refine ⟨later, found'', ?_⟩
    rw [request, acknowledged]
    refine ⟨at_.topic, at_.stored, at_.position, ?_, ?_⟩
    · exact (after _).trans (if_pos rfl)
    · intro k other
      exact (at_.elsewhere k other).trans ((after k).trans (if_neg other)).symm
  · intro k
    rw [after]
    split_ifs with same
    · rw [same, before]
      omega
    · exact Nat.le_refl _

theorem Tracks.call (opening : w.Opening) (tracks : s.Tracks w trace) {a : Concurrency.Action machine}
    (started : isStart a = false) (moved : machine.step s.calls a = some calls) :
    (∃ trace', Tracks w { s with calls } trace') ∧ ∀ k,
    committed k s.calls.world ≤ committed k calls.world := by
  have reading : Reading s.calls a := by
    rintro p message rfl
    cases started
  have traces := tracks.traces.tail reading moved
  rcases Machine.step_cases moved with ⟨p, request, rfl, fresh, rfl⟩ |
    ⟨p, choice, proc, stmt, next, result, w', rfl, found, rest, executed, rfl⟩ |
    ⟨p, proc, rfl, _, _, rfl⟩ | ⟨p, proc, rfl, _, _, rfl⟩ | ⟨e, w', rfl, ticked, rfl⟩
  · cases started
  · have current : s.current = some p := by
      by_contra other
      have finished := tracks.others p proc found other
      rw [rest] at finished
      exact finished
    have follows := handles_of_traces tracks.traces found
    rw [rest] at follows
    have own : handling.phase p ((machine.executed s.calls (.step p choice)).toList ++ trace) =
        handling.after (handling.phase p trace) stmt result :=
      Protocol.phase_of_own found rest executed
    obtain ⟨kept, _, ⟨offsets, same⟩ | ⟨topic, partition, offset, rfl, acknowledged, offsets⟩⟩ :=
      exec_cases (φ := handling.phase p trace) executed
    · refine ⟨⟨_, tracks.still rfl moved traces kept offsets fun q => ?_⟩, fun k => ?_⟩
      · by_cases mine : q = p
        · subst mine
          rw [own]
          exact same
        · rw [Protocol.phase_of_other fun c absurd => mine (by cases absurd; rfl)]
      · exact Nat.le_of_eq (congrArg (fun o => (o (Outbox.kafkaLedgerTopic, k)).getD 0) offsets.symm)
    · obtain ⟨tracks', grows⟩ := tracks.acknowledge opening moved traces found current
        (Protocol.open_of_call found rest) follows.1 kept (own ▸ acknowledged) offsets
      exact ⟨⟨_, tracks'⟩, grows⟩
  · exact ⟨⟨_, tracks.still rfl moved traces (Finset.Subset.refl _) rfl fun _ => rfl⟩,
      fun _ => Nat.le_refl _⟩
  · exact ⟨⟨_, tracks.still rfl moved traces (Finset.Subset.refl _) rfl fun _ => rfl⟩,
      fun _ => Nat.le_refl _⟩
  · cases ticked
    exact ⟨⟨_, tracks.still rfl moved traces (Finset.Subset.refl _) rfl fun _ => rfl⟩, fun _ => Nat.le_refl _⟩

theorem Tracks.step (opening : w.Opening) (tracks : s.Tracks w trace) {a : Action} (stepped : s.step a = some t) :
    (∃ trace', t.Tracks w trace') ∧ ∀ k, committed k s.calls.world ≤ committed k t.calls.world := by
  cases a with
  | publish partition event =>
    cases stepped
    exact ⟨⟨_, tracks.publish partition event⟩, fun _ => Nat.le_refl _⟩
  | fetch p partition =>
    obtain ⟨value, calls, stored, waiting, started, rfl⟩ := step_fetch stepped
    refine ⟨⟨_, tracks.fetch waiting stored started⟩, fun k => Nat.le_of_eq ?_⟩
    obtain ⟨_, rfl⟩ := Machine.step_start started
    rfl
  | call a =>
    obtain ⟨calls, started, moved, rfl⟩ := step_call stepped
    exact tracks.call opening started moved
  | restart =>
    simp only [Reader.step] at stepped
    split_ifs at stepped with stopped
    cases stepped
    exact ⟨⟨_, tracks.restart stopped⟩, fun _ => Nat.le_refl _⟩

theorem tracks_of_runs (opening : s.Opening) (runs : Runs s t) : ∃ trace, t.Tracks s.calls.world trace := by
  induction runs with
  | refl =>
    refine ⟨[], opening.calls ▸ .refl, opening.log, ?_, ?_, ?_, ?_⟩
    · intro partition offset below
      rw [opening.offsets] at below
      omega
    · intro _ partition
      rw [opening.position, opening.offsets]
    · intro p current
      rw [opening.current] at current
      cases current
    · intro p proc found
      rw [opening.calls] at found
      cases found
  | tail _ stepped ih =>
    obtain ⟨a, stepped⟩ := stepped
    obtain ⟨trace, tracks⟩ := ih
    exact (tracks.step opening.world stepped).1

theorem committed_mono (opening : s.Opening) {u : Reader} (first : Runs s t) (second : Runs t u) (partition : ℕ) :
    committed partition t.calls.world ≤ committed partition u.calls.world := by
  induction second with
  | refl => exact Nat.le_refl _
  | tail runs stepped ih =>
    obtain ⟨a, stepped⟩ := stepped
    obtain ⟨trace, tracks⟩ := tracks_of_runs opening (first.trans runs)
    exact ih.trans ((tracks.step opening.world stepped).2 partition)

/-- No message is acknowledged unprocessed, and the committed offset never goes back. -/
theorem acknowledged_processed (opening : s.Opening) {u : Reader} (first : Runs s t) (second : Runs t u)
    (partition : ℕ) : (∀ offset, offset < committed partition t.calls.world →
      ∃ value eventId, (t.log partition)[offset]? = some value ∧ eventIdOf value = .ok eventId ∧
        eventId ∈ registered t.calls.world) ∧
      committed partition t.calls.world ≤ committed partition u.calls.world := by
  obtain ⟨trace, tracks⟩ := tracks_of_runs opening first
  exact ⟨tracks.settled partition, committed_mono opening first second partition⟩

/-! A deposit that is published twice. -/

def sampleEvent : Outbox.OutboxEvent :=
  Outbox.createOutboxEvent 5 1 "DEPOSIT_POSTED"
    (.obj [("account_id", .str (UUID.str 1)), ("amount", .str "100.00")]) 0

def unread : Reader := ⟨machine.initial emptyTables, fun _ => [], fun _ => 0, none⟩

def proceeds (p n : ℕ) : List Action := List.replicate n (.call (.step p Choice.proceed))

/-- The broker is down when the first message is to be acknowledged, and the next
consumer finds its event registered. -/
theorem acknowledged_processed_sample : ∃ t u : Reader, committed 0 t.calls.world = 1 ∧
    committed 0 u.calls.world = 2 ∧ ((∀ offset, offset < committed 0 t.calls.world →
      ∃ value eventId, (t.log 0)[offset]? = some value ∧ eventIdOf value = .ok eventId ∧
        eventId ∈ registered t.calls.world) ∧
      committed 0 t.calls.world ≤ committed 0 u.calls.world) := by
  have observed : (do
      let t ← (.publish 0 sampleEvent :: .publish 0 sampleEvent :: .fetch 0 0 :: proceeds 0 5 ++
        .call (.step 0 (Choice.kafkaDown "")) :: .call (.close 0) :: .restart :: .fetch 1 0 :: proceeds 1
          5).foldlM step unread
      let u ← (.fetch 2 0 :: proceeds 2 5).foldlM step t
      some (decide (committed 0 t.calls.world = 1 ∧ committed 0 u.calls.world = 2))) = some true := by
    decide +kernel
  obtain ⟨t, first, observed⟩ := Option.bind_eq_some_iff.1 observed
  obtain ⟨u, second, observed⟩ := Option.bind_eq_some_iff.1 observed
  obtain ⟨once, twice⟩ := of_decide_eq_true (Option.some.inj observed)
  have opening : unread.Opening := by
    refine ⟨rfl, ⟨⟨fun _ => rfl, fun _ => rfl⟩, ⟨fun _ => rfl, fun _ => rfl⟩⟩, fun _ => rfl, ?_,
      fun _ => rfl, rfl⟩
    exact fun _ _ absurd => (List.not_mem_nil absurd).elim
  exact ⟨t, u, once, twice, acknowledged_processed opening (reaches_of_actions first)
    (reaches_of_actions second) 0⟩

end Reader
end LedgerFlow.Consumers
