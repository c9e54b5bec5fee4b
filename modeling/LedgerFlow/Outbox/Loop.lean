import LedgerFlow.Outbox.Liveness

/-! The background tasks of the application: `OutboxWorker.run` and `stop` with the `KafkaProducer` of the worker, any
number of them against one database and one topic, from the startup of the application to its shutdown. -/

namespace LedgerFlow.Outbox
open Concurrency

inductive Producer where
  | none
  | created
  | started
  deriving DecidableEq

inductive Phase where
  | absent
  /-- Created, before its first step. -/
  | scheduled
  | starting
  | polling
  | batch (p : ℕ)
  | sleeping
  /-- In `producer.stop()` of the `finally` block. -/
  | stopping (failed : Bool)
  | ended (failed : Bool)
  deriving DecidableEq

structure Worker where
  batchSize : ℕ
  running : Bool
  producer : Producer
  phase : Phase

namespace Worker

def stop (v : Worker) : Worker := { v with running := false }

/-- The first step of `run`, up to `await self._producer.start()`. -/
def run (v : Worker) : Option Worker :=
  match v.phase with
  | .scheduled => some { v with running := true, producer := .created, phase := .starting }
  | _ => none

def leave (v : Worker) : Option Worker :=
  match v.phase with
  | .polling => if v.running then none else some { v with phase := .stopping false }
  | _ => none

/-- What the task awaits has returned; `calls` are the batches. -/
def resume (calls : ℕ → Option (Proc machine)) (v : Worker) : Option Worker :=
  match v.phase with
  | .starting => some { v with producer := .started, phase := .polling }
  | .batch p =>
    match calls p with
    | none => none
    | some proc =>
      match proc.rest with
      | .ret processed => some { v with phase := if Nat.beq processed 0 then .sleeping else .polling }
      | .raise _ => some { v with phase := .stopping true }
      | .call _ _ => none
  | .sleeping => some { v with phase := .polling }
  | .stopping failed => some { v with producer := .none, phase := .ended failed }
  | _ => none

/-- What the task awaits, other than a batch, raises an exception, or the task is cancelled there. -/
def fail (v : Worker) : Option Worker :=
  match v.phase with
  | .scheduled => some { v with phase := .ended true }
  | .starting => some { v with phase := .stopping true }
  | .sleeping => some { v with phase := .stopping true }
  | .stopping _ => some { v with phase := .ended true }
  | _ => none

end Worker

def Producer.Sends (producer : Producer) (choice : Choice) : Prop :=
  producer = .none → choice = .sendFails "Kafka producer is not started" false

instance (producer : Producer) (choice : Choice) : Decidable (producer.Sends choice) :=
  inferInstanceAs (Decidable (_ → _))

def isSend : Option Stmt → Bool
  | some (.send _ _) => true
  | _ => false

structure Loops where
  calls : State machine
  workers : ℕ → Worker

namespace Loops

inductive Action where
  | startup (i : ℕ)
  | run (i : ℕ)
  | poll (i p : ℕ)
  | leave (i : ℕ)
  | resume (i : ℕ)
  | fail (i : ℕ)
  /-- `shutdown`, before it awaits the task. -/
  | stop (i : ℕ)
  | statement (i : ℕ) (choice : Choice)
  /-- A statement of the batch of worker `i` fails, or the task is cancelled in it. -/
  | interrupt (i : ℕ)
  | close (p : ℕ)
  | tick (e : Tick)

def set (s : Loops) (i : ℕ) (v : Worker) : Loops := { s with workers := Function.update s.workers i v }

def step (s : Loops) : Action → Option Loops
  | .startup i =>
    if (s.workers i).phase = .absent then some (s.set i { s.workers i with phase := .scheduled }) else none
  | .run i => (s.workers i).run.map (s.set i)
  | .poll i p =>
    if (s.workers i).phase = .polling ∧ (s.workers i).running then
      (machine.step s.calls (.start p (s.workers i).batchSize)).map fun calls =>
        { s with calls }.set i { s.workers i with phase := .batch p }
    else none
  | .leave i => (s.workers i).leave.map (s.set i)
  | .resume i => ((s.workers i).resume s.calls.procs).map (s.set i)
  | .fail i => (s.workers i).fail.map (s.set i)
  | .stop i => some (s.set i (s.workers i).stop)
  | .statement i choice =>
    match (s.workers i).phase with
    | .batch p =>
      if isSend ((s.calls.procs p).bind (·.rest.head)) → (s.workers i).producer.Sends choice then
        (machine.step s.calls (.step p choice)).map fun calls => { s with calls }
      else none
    | _ => none
  | .interrupt i =>
    match (s.workers i).phase with
    | .batch p => (machine.step s.calls (.abort p)).map fun calls => { s with calls }
    | _ => none
  | .close p => (machine.step s.calls (.close p)).map fun calls => { s with calls }
  | .tick e => (machine.step s.calls (.tick e)).map fun calls => { s with calls }

abbrev Runs : Loops → Loops → Prop := Relation.ReflTransGen fun s t => ∃ a, step s a = some t

structure Opening (s : Loops) : Prop where
  calls : s.calls = machine.initial s.calls.world
  world : World.Opening s.calls.world
  workers : ∀ i, (s.workers i).phase = .absent ∧ (s.workers i).producer = .none

def asleep : Loops := ⟨machine.initial outbox, fun _ => ⟨100, false, .none, .absent⟩⟩

theorem asleep_opening : asleep.Opening := ⟨rfl, outbox_opening, fun _ => ⟨rfl, rfl⟩⟩

def launch : List Action := [.startup 0, .run 0, .resume 0, .poll 0 7]

variable {s t : Loops} {i j p : ℕ}

@[simp] theorem set_self {v : Worker} : (s.set i v).workers i = v := Function.update_self ..

@[simp] theorem set_of_ne {v : Worker} (other : j ≠ i) : (s.set i v).workers j = s.workers j :=
  Function.update_of_ne other ..

/-- What a task does by itself, while `calls` are the batches, and whether it does so for an exception of what
it awaits, other than a batch. -/
inductive Moves (calls : ℕ → Option (Proc machine)) (v : Worker) : Bool → Worker → Prop where
  | startup (absent : v.phase = .absent) : Moves calls v false { v with phase := .scheduled }
  | run (scheduled : v.phase = .scheduled) :
      Moves calls v false { v with running := true, producer := .created, phase := .starting }
  | started (starting : v.phase = .starting) : Moves calls v false { v with producer := .started, phase := .polling }
  | slept (sleeping : v.phase = .sleeping) : Moves calls v false { v with phase := .polling }
  | processed (p : ℕ) (proc : Proc machine) (processed : ℕ) (batch : v.phase = .batch p)
      (found : calls p = some proc)
      (returned : proc.rest = .ret processed) (next : Phase) (goes : next = .sleeping ∨ next = .polling) :
      Moves calls v false { v with phase := next }
  | crashed (p : ℕ) (proc : Proc machine) (error : PyError) (batch : v.phase = .batch p)
      (found : calls p = some proc)
      (raised : proc.rest = .raise error) : Moves calls v false { v with phase := .stopping true }
  | leave (polling : v.phase = .polling) (stopped : v.running = false) :
      Moves calls v false { v with phase := .stopping false }
  | ended (failed : Bool) (stopping : v.phase = .stopping failed) :
      Moves calls v false { v with producer := .none, phase := .ended failed }
  | failed (awaits : v.phase = .starting ∨ v.phase = .sleeping) :
      Moves calls v true { v with phase := .stopping true }
  | cut (waits : v.phase = .scheduled ∨ ∃ failed, v.phase = .stopping failed) :
      Moves calls v true { v with phase := .ended true }

variable {calls : ℕ → Option (Proc machine)} {v v' : Worker} {fails : Bool}

theorem moves_of_run (moved : v.run = some v') : Moves calls v false v' := by
  unfold Worker.run at moved
  split at moved
  · rename_i scheduled
    cases moved
    exact .run scheduled
  · cases moved

theorem moves_of_leave (moved : v.leave = some v') : Moves calls v false v' := by
  unfold Worker.leave at moved
  split at moved
  · rename_i polling
    split_ifs at moved with running
    cases moved
    exact .leave polling (Bool.eq_false_of_not_eq_true running)
  · cases moved

theorem moves_of_resume (moved : v.resume calls = some v') : Moves calls v false v' := by
  unfold Worker.resume at moved
  split at moved
  · rename_i starting
    cases moved
    exact .started starting
  · rename_i p batch
    split at moved
    · cases moved
    · rename_i proc found
      split at moved
      · rename_i processed returned
        cases moved
        apply Moves.processed p proc processed batch found returned
        split_ifs
        · exact .inl rfl
        · exact .inr rfl
      · rename_i error raised
        cases moved
        exact .crashed p proc error batch found raised
      · cases moved
  · rename_i sleeping
    cases moved
    exact .slept sleeping
  · rename_i failed stopping
    cases moved
    exact .ended failed stopping
  · cases moved

theorem moves_of_fail (moved : v.fail = some v') : Moves calls v true v' := by
  unfold Worker.fail at moved
  split at moved
  · rename_i scheduled
    cases moved
    exact .cut (.inl scheduled)
  · rename_i starting
    cases moved
    exact .failed (.inl starting)
  · rename_i sleeping
    cases moved
    exact .failed (.inr sleeping)
  · rename_i failed stopping
    cases moved
    exact .cut (.inr ⟨failed, stopping⟩)
  · cases moved

def Action.advances (i : ℕ) : Action → Bool
  | .startup j | .run j | .poll j _ | .leave j | .resume j | .fail j => i == j
  | _ => false

def Action.isPoll : Action → Bool
  | .poll _ _ => true
  | _ => false

theorem step_cases {a : Action} (stepped : step s a = some t) :
    (∃ i fails v, (∀ j, a.advances j = (j == i)) ∧ a.isPoll = false ∧ (fails = true → a = .fail i) ∧
      Moves s.calls.procs (s.workers i) fails v ∧ t = s.set i v) ∨
    (∃ i, a = .stop i ∧ t = s.set i (s.workers i).stop) ∨
    (∃ i p calls, a = .poll i p ∧ (s.workers i).phase = .polling ∧ (s.workers i).running = true ∧
      machine.step s.calls (.start p (s.workers i).batchSize) = some calls ∧
      t = { s with calls }.set i { s.workers i with phase := .batch p }) ∨
    ∃ b calls, (∀ j, a.advances j = false) ∧ a.isPoll = false ∧ (∀ p request, b ≠ .start p request) ∧
      machine.step s.calls b = some calls ∧ t = { s with calls } := by
  cases a with
  | startup i =>
    simp only [step] at stepped
    split_ifs at stepped with absent
    cases stepped
    exact .inl ⟨i, false, _, fun _ => rfl, rfl, nofun, .startup absent, rfl⟩
  | run i =>
    obtain ⟨v, moved, rfl⟩ := Option.map_eq_some_iff.1 stepped
    exact .inl ⟨i, false, v, fun _ => rfl, rfl, nofun, moves_of_run moved, rfl⟩
  | poll i p =>
    simp only [step] at stepped
    split_ifs at stepped with polls
    obtain ⟨calls, started, rfl⟩ := Option.map_eq_some_iff.1 stepped
    exact .inr (.inr (.inl ⟨i, p, calls, rfl, polls.1, polls.2, started, rfl⟩))
  | leave i =>
    obtain ⟨v, moved, rfl⟩ := Option.map_eq_some_iff.1 stepped
    exact .inl ⟨i, false, v, fun _ => rfl, rfl, nofun, moves_of_leave moved, rfl⟩
  | resume i =>
    obtain ⟨v, moved, rfl⟩ := Option.map_eq_some_iff.1 stepped
    exact .inl ⟨i, false, v, fun _ => rfl, rfl, nofun, moves_of_resume moved, rfl⟩
  | fail i =>
    obtain ⟨v, moved, rfl⟩ := Option.map_eq_some_iff.1 stepped
    exact .inl ⟨i, true, v, fun _ => rfl, rfl, fun _ => rfl, moves_of_fail moved, rfl⟩
  | stop i =>
    cases stepped
    exact .inr (.inl ⟨i, rfl, rfl⟩)
  | statement i choice =>
    simp only [step] at stepped
    split at stepped
    · split_ifs at stepped
      obtain ⟨calls, moved, rfl⟩ := Option.map_eq_some_iff.1 stepped
      exact .inr (.inr (.inr ⟨_, calls, fun _ => rfl, rfl, fun _ _ other => (by cases other), moved, rfl⟩))
    · cases stepped
  | interrupt i =>
    simp only [step] at stepped
    split at stepped
    · obtain ⟨calls, moved, rfl⟩ := Option.map_eq_some_iff.1 stepped
      exact .inr (.inr (.inr ⟨_, calls, fun _ => rfl, rfl, fun _ _ other => (by cases other), moved, rfl⟩))
    · cases stepped
  | close p =>
    obtain ⟨calls, moved, rfl⟩ := Option.map_eq_some_iff.1 stepped
    exact .inr (.inr (.inr ⟨_, calls, fun _ => rfl, rfl, fun _ _ other => (by cases other), moved, rfl⟩))
  | tick e =>
    obtain ⟨calls, moved, rfl⟩ := Option.map_eq_some_iff.1 stepped
    exact .inr (.inr (.inr ⟨_, calls, fun _ => rfl, rfl, fun _ _ other => (by cases other), moved, rfl⟩))

/-! Every batch in progress is that of one worker, whose producer is started. -/

/-- What the phase of a task says of the producer. -/
def Sound (v : Worker) : Prop :=
  match v.phase with
  | .absent | .scheduled | .ended false => v.producer = .none
  | .starting => v.producer = .created
  | .polling | .batch _ | .sleeping => v.producer = .started
  | .stopping _ | .ended true => True

theorem Moves.sound (moves : Moves calls v fails v') (sound : Sound v) : Sound v' := by
  cases moves with
  | startup absent =>
    unfold Sound at sound
    rw [absent] at sound
    exact sound
  | slept sleeping =>
    unfold Sound at sound
    rw [sleeping] at sound
    exact sound
  | processed p proc processed batch found returned next goes =>
    unfold Sound at sound
    rw [batch] at sound
    cases goes with
    | inl same => exact same ▸ sound
    | inr same => exact same ▸ sound
  | ended failed => cases failed <;> trivial
  | _ => trivial

theorem Moves.batch (moves : Moves calls v fails v') (after : v'.phase = .batch p) : v.phase = .batch p := by
  cases moves with
  | processed q proc processed batch found returned next goes =>
    have after : next = .batch p := after
    cases goes with
    | inl same => cases same.symm.trans after
    | inr same => cases same.symm.trans after
  | _ => cases after

theorem Moves.finished (moves : Moves calls v fails v') (before : v.phase = .batch p) :
    v'.phase = .batch p ∨ ∃ proc, calls p = some proc ∧ proc.rest.Finished := by
  cases moves with
  | processed q proc processed batch found returned next goes =>
    cases before.symm.trans batch
    exact .inr ⟨proc, found, by rw [returned]; trivial⟩
  | crashed q proc error batch found raised =>
    cases before.symm.trans batch
    exact .inr ⟨proc, found, by rw [raised]; trivial⟩
  | startup at_ | run at_ | started at_ | slept at_ | leave at_ | ended _ at_ => cases before.symm.trans at_
  | failed awaits => rcases awaits with at_ | at_ <;> cases before.symm.trans at_
  | cut waits => rcases waits with at_ | ⟨_, at_⟩ <;> cases before.symm.trans at_

structure Owned (w : World) (s : Loops) : Prop where
  runs : machine.Runs machine.anything (machine.initial w) s.calls
  sound : ∀ i, Sound (s.workers i)
  begun : ∀ i p, (s.workers i).phase = .batch p → ∃ proc, s.calls.procs p = some proc
  unique : ∀ i j p, (s.workers i).phase = .batch p → (s.workers j).phase = .batch p → i = j
  owner : ∀ p proc, s.calls.procs p = some proc → ¬proc.rest.Finished → ∃ i, (s.workers i).phase = .batch p

variable {w : World}

theorem workers_set {Q : ℕ → Worker → Prop} (all : ∀ j, Q j (s.workers j)) (new : Q i v) (j : ℕ) :
    Q j ((s.set i v).workers j) := by
  by_cases same : j = i
  · subst same
    rw [set_self]
    exact new
  · rw [set_of_ne same]
    exact all j

theorem Owned.set (owned : Owned w s) (sound : Sound v)
    (kept : ∀ p, v.phase = .batch p → (s.workers i).phase = .batch p)
    (finished : ∀ p, (s.workers i).phase = .batch p →
      v.phase = .batch p ∨ ∃ proc, s.calls.procs p = some proc ∧ proc.rest.Finished) : Owned w (s.set i v) := by
  have before : ∀ j, ∀ p, ((s.set i v).workers j).phase = .batch p → (s.workers j).phase = .batch p :=
    workers_set (Q := fun j v => ∀ p, v.phase = .batch p → (s.workers j).phase = .batch p)
      (fun _ _ same => same) kept
  refine ⟨owned.runs, workers_set owned.sound sound, ?_, ?_, ?_⟩
  · intro j p batch
    exact owned.begun j p (before j p batch)
  · intro j k p batch batch'
    exact owned.unique j k p (before j p batch) (before k p batch')
  · intro p proc found running
    obtain ⟨j, batch⟩ := owned.owner p proc found running
    refine ⟨j, ?_⟩
    by_cases same : j = i
    · subst same
      rcases finished p batch with still | ⟨proc', found', finished⟩
      · rw [set_self]
        exact still
      · have found' : s.calls.procs p = some proc' := found'
        cases found.symm.trans found'
        exact absurd finished running
    · rw [set_of_ne same]
      exact batch

theorem Owned.polls {calls : State machine} (owned : Owned w s) (polling : (s.workers i).phase = .polling)
    (started : machine.step s.calls (.start p (s.workers i).batchSize) = some calls) :
    Owned w ({ s with calls }.set i { s.workers i with phase := .batch p }) := by
  have runs := owned.runs.tail ⟨_, trivial, started⟩
  obtain ⟨fresh, rfl⟩ := Machine.step_start started
  have elsewhere : ∀ j q, (s.workers j).phase = .batch q → q ≠ p := by
    intro j q batch same
    obtain ⟨proc, found⟩ := owned.begun j q batch
    rw [same, fresh] at found
    cases found
  have producing : (s.workers i).producer = .started := by
    have sound := owned.sound i
    unfold Sound at sound
    rw [polling] at sound
    exact sound
  have batch : ∀ j q, ((s.set i { s.workers i with phase := .batch p }).workers j).phase = .batch q →
      j = i ∧ q = p ∨ j ≠ i ∧ q ≠ p ∧ (s.workers j).phase = .batch q := by
    intro j q batch
    by_cases same : j = i
    · subst same
      rw [set_self] at batch
      cases batch
      exact .inl ⟨rfl, rfl⟩
    · rw [set_of_ne same] at batch
      exact .inr ⟨same, elsewhere j q batch, batch⟩
  refine ⟨runs, workers_set owned.sound producing, ?_, ?_, ?_⟩
  · intro j q at_
    rcases batch j q at_ with ⟨_, rfl⟩ | ⟨_, other, before⟩
    · exact ⟨_, Function.update_self ..⟩
    · obtain ⟨proc, found⟩ := owned.begun j q before
      exact ⟨proc, (Function.update_of_ne other ..).trans found⟩
  · intro j k q at_ at_'
    rcases batch j q at_ with ⟨rfl, rfl⟩ | ⟨_, other, before⟩
    · rcases batch k q at_' with ⟨same, _⟩ | ⟨_, other, _⟩
      · exact same.symm
      · exact absurd rfl other
    · rcases batch k q at_' with ⟨_, same⟩ | ⟨_, _, before'⟩
      · exact absurd same other
      · exact owned.unique j k q before before'
  · intro q proc found running
    rcases Machine.found_update found with ⟨rfl, rfl⟩ | ⟨other, found⟩
    · exact ⟨i, congrArg Worker.phase set_self⟩
    · obtain ⟨j, before⟩ := owned.owner q proc found running
      have different : j ≠ i := by
        intro same
        rw [same, polling] at before
        cases before
      refine ⟨j, ?_⟩
      rw [← before]
      exact congrArg Worker.phase (set_of_ne different)

theorem Owned.call {calls : State machine} {b : Concurrency.Action machine} (owned : Owned w s)
    (other : ∀ p request, b ≠ .start p request) (moved : machine.step s.calls b = some calls) :
    Owned w { s with calls } := by
  refine ⟨owned.runs.tail ⟨b, trivial, moved⟩, owned.sound, ?_, owned.unique, ?_⟩
  · intro i p batch
    obtain ⟨proc, found⟩ := owned.begun i p batch
    obtain ⟨after, found', _⟩ := Machine.request_of_step moved found
    exact ⟨after, found'⟩
  · intro p proc found running
    cases before : s.calls.procs p with
    | none =>
      have idle := Machine.procs_of_step moved before (other p)
      cases idle.symm.trans found
    | some proc' =>
      apply owned.owner p proc' before
      rcases Machine.rest_cases moved before with same | ⟨_, _, unfinished, _⟩
      · cases same.symm.trans found
        exact running
      · exact unfinished

theorem Owned.step {a : Action} (owned : Owned w s) (stepped : step s a = some t) : Owned w t := by
  rcases step_cases stepped with ⟨i, _, v, _, _, _, moves, rfl⟩ | ⟨i, _, rfl⟩ |
    ⟨i, p, calls, _, polling, _, started, rfl⟩ | ⟨b, calls, _, _, other, moved, rfl⟩
  · exact owned.set (moves.sound (owned.sound i)) (fun _ after => moves.batch after) fun _ before =>
      moves.finished before
  · exact owned.set (owned.sound i) (fun _ same => same) fun _ same => .inl same
  · exact owned.polls polling started
  · exact owned.call other moved

theorem owned_of_runs (opening : s.Opening) (runs : Runs s t) : Owned s.calls.world t := by
  induction runs with
  | refl =>
    refine ⟨?_, fun i => ?_, fun i p batch => ?_, fun i j p batch => ?_, fun p proc found => ?_⟩
    · rw [← opening.calls]
    · unfold Sound
      rw [(opening.workers i).1]
      exact (opening.workers i).2
    · cases (opening.workers i).1.symm.trans batch
    · cases (opening.workers i).1.symm.trans batch
    · rw [opening.calls] at found
      cases found
  | tail _ stepped ih =>
    obtain ⟨a, stepped⟩ := stepped
    exact ih.step stepped

/-- Every batch in progress is that of exactly one worker, and the producer of that
worker is started: no send finds it missing. -/
theorem batches_owned (opening : s.Opening) (runs : Runs s t) :
    (∀ p proc, t.calls.procs p = some proc → ¬proc.rest.Finished → ∃! i, (t.workers i).phase = .batch p) ∧
      ∀ i p, (t.workers i).phase = .batch p → (t.workers i).producer = .started := by
  have owned := owned_of_runs opening runs
  constructor
  · intro p proc found running
    obtain ⟨i, batch⟩ := owned.owner p proc found running
    exact ⟨i, batch, fun j batch' => owned.unique j i p batch' batch⟩
  · intro i p batch
    have sound := owned.sound i
    unfold Sound at sound
    rw [batch] at sound
    exact sound

def begun : List Action := launch ++ [.statement 0 .proceed, .statement 0 (.order [])]

theorem batches_owned_sample : ∃ t proc, Runs asleep t ∧ t.calls.procs 7 = some proc ∧ ¬proc.rest.Finished ∧
    ∃! i, (t.workers i).phase = .batch 7 := by
  have executed : (begun.foldlM step asleep).map (fun t => (t.calls.procs 7).any (·.rest.head.isSome)) =
      some true := by
    decide +kernel
  obtain ⟨t, reached, running⟩ := Option.map_eq_some_iff.1 executed
  obtain ⟨proc, found, running⟩ := (Option.any_eq_true ..).1 running
  have unfinished : ¬proc.rest.Finished := by
    intro finished
    cases rest : proc.rest with
    | ret => simp [rest, Prog.head] at running
    | raise => simp [rest, Prog.head] at running
    | call stmt next =>
      rw [rest] at finished
      exact finished
  have runs : Runs asleep t := reaches_of_actions reached
  exact ⟨t, proc, runs, found, unfinished, (batches_owned asleep_opening runs).1 7 proc found unfinished⟩

/-! A worker that is told to stop. -/

/-- The loop has been told to stop since it began, or it has been left. -/
def Leaving (v : Worker) : Prop :=
  match v.phase with
  | .absent | .scheduled => False
  | .stopping _ | .ended _ => True
  | _ => v.running = false

def distance : Phase → ℕ
  | .batch _ => 4
  | .starting | .sleeping => 3
  | .polling => 2
  | .stopping _ => 1
  | _ => 0

theorem Moves.leaving (moves : Moves calls v fails v') (leaving : Leaving v) : Leaving v' ∧
    distance v'.phase < distance v.phase := by
  unfold Leaving at leaving
  cases moves with
  | processed p proc processed batch found returned next goes =>
    rw [batch] at leaving
    rcases goes with rfl | rfl
    · exact ⟨leaving, by simp [distance, batch]⟩
    · exact ⟨leaving, by simp [distance, batch]⟩
  | startup at_ | run at_ =>
    rw [at_] at leaving
    exact leaving.elim
  | started at_ | slept at_ =>
    rw [at_] at leaving
    exact ⟨leaving, by simp [distance, at_]⟩
  | crashed _ _ _ at_ | leave at_ | ended _ at_ => exact ⟨trivial, by simp [distance, at_]⟩
  | failed awaits =>
    rcases awaits with at_ | at_
    · exact ⟨trivial, by simp [distance, at_]⟩
    · exact ⟨trivial, by simp [distance, at_]⟩
  | cut waits =>
    rcases waits with at_ | ⟨_, at_⟩
    · rw [at_] at leaving
      exact leaving.elim
    · exact ⟨trivial, by simp [distance, at_]⟩

theorem leaving_of_stop (leaving : Leaving v) : Leaving v.stop := by
  unfold Leaving at leaving ⊢
  cases phase : v.phase <;> simp_all [Worker.stop]

theorem not_polling {v : Worker} (leaving : Leaving v) (running : v.running = true) : v.phase ≠ .polling := by
  intro polling
  unfold Leaving at leaving
  rw [polling] at leaving
  cases running.symm.trans leaving

theorem Leaving.step {a : Action} (leaving : Leaving (s.workers i)) (stepped : step s a = some t) :
    Leaving (t.workers i) ∧ (∀ p, a ≠ .poll i p) ∧
      distance (t.workers i).phase + (a.advances i).toNat ≤ distance (s.workers i).phase := by
  rcases step_cases stepped with ⟨j, _, v, own, quiet, _, moves, rfl⟩ | ⟨j, rfl, rfl⟩ |
    ⟨j, p, calls, rfl, polling, running, started, rfl⟩ | ⟨b, calls, own, quiet, other, moved, rfl⟩
  · have silent : ∀ p, a ≠ .poll i p := fun p same => by cases same; cases quiet
    by_cases same : i = j
    · subst same
      obtain ⟨after, nearer⟩ := moves.leaving leaving
      rw [set_self, own, beq_self_eq_true]
      exact ⟨after, silent, nearer⟩
    · rw [set_of_ne same, own, beq_false_of_ne same]
      exact ⟨leaving, silent, Nat.le_refl _⟩
  · refine ⟨?_, fun _ other => (by cases other), ?_⟩
    · exact workers_set (Q := fun k v => k = i → Leaving v) (fun k same => same ▸ leaving)
        (fun same => leaving_of_stop (same ▸ leaving)) i rfl
    · apply Nat.le_of_eq
      exact workers_set (Q := fun k v => k = i → distance v.phase = distance (s.workers i).phase)
        (fun k same => same ▸ rfl) (fun same => same ▸ rfl) i rfl
  · have different : i ≠ j := by
      intro same
      subst same
      exact not_polling leaving running polling
    rw [set_of_ne different]
    refine ⟨leaving, ?_, ?_⟩
    · intro q same
      cases same
      exact different rfl
    · change distance (s.workers i).phase + (i == j).toNat ≤ _
      rw [beq_false_of_ne different]
      exact Nat.le_refl _
  · refine ⟨leaving, ?_, ?_⟩
    · intro q same
      subst same
      cases quiet
    · rw [own]
      exact Nat.le_refl _

/-- A worker that has been stopped since it began, or whose batch has failed, starts no further batch, and
after four more steps of its task at most there are none left. -/
theorem no_batch_after_stop (leaving : Leaving (s.workers i)) {actions : List Action}
    (path : actions.foldlM step s = some t) :
    (∀ p, .poll i p ∉ actions) ∧ (actions.filter (Action.advances i)).length ≤ 4 := by
  have paced : (∀ p, .poll i p ∉ actions) ∧
      distance (t.workers i).phase + (actions.filter (Action.advances i)).length ≤
        distance (s.workers i).phase := by
    induction actions generalizing s with
    | nil =>
      cases path
      exact ⟨fun _ => List.not_mem_nil, Nat.le_refl _⟩
    | cons a actions ih =>
      rw [List.foldlM_cons] at path
      obtain ⟨u, stepped, path⟩ := Option.bind_eq_some_iff.1 path
      obtain ⟨after, silent, nearer⟩ := leaving.step stepped
      obtain ⟨never, paced⟩ := ih after path
      refine ⟨fun p member => ?_, ?_⟩
      · rcases List.mem_cons.1 member with same | later
        · exact silent p same.symm
        · exact never p later
      · rw [List.filter_cons]
        split_ifs with advances
        · rw [advances] at nearer
          rw [List.length_cons]
          simp only [Bool.toNat_true] at nearer
          omega
        · omega
  have most : distance (s.workers i).phase ≤ 4 := by
    cases (s.workers i).phase <;> simp [distance]
  exact ⟨paced.1, by omega⟩

def stopped : List Action := launch ++ [.statement 0 .proceed, .stop 0]

theorem leaving_of_stopped : ∃ s, Runs asleep s ∧ Leaving (s.workers 0) ∧
    ([.interrupt 0, .resume 0, .resume 0].foldlM step s).isSome := by
  have executed : (stopped.foldlM step asleep).map (fun s => ((s.workers 0).phase, (s.workers 0).running,
      ([.interrupt 0, .resume 0, .resume 0].foldlM step s).isSome)) = some (.batch 7, false, true) := by
        decide +kernel
  obtain ⟨s, reached, observed⟩ := Option.map_eq_some_iff.1 executed
  simp only [Prod.mk.injEq] at observed
  obtain ⟨batch, off, goes⟩ := observed
  refine ⟨s, reaches_of_actions reached, ?_, goes⟩
  unfold Leaving
  rw [batch]
  exact off

theorem no_batch_after_stop_sample : ∃ s t, Runs asleep s ∧
    [.interrupt 0, .resume 0, .resume 0].foldlM step s = some t ∧
    ([.interrupt 0, .resume 0, .resume 0].filter (Action.advances 0)).length ≤ 4 := by
  obtain ⟨s, runs, leaving, goes⟩ := leaving_of_stopped
  obtain ⟨t, path⟩ := Option.isSome_iff_exists.1 goes
  exact ⟨s, t, runs, path, (no_batch_after_stop leaving path).2⟩

/-! The shutdown comes to its end. -/

/-- The batches go on, and so does the task of worker `i`; nothing fails, and nothing is started. The broker
answers each send as `broker` says. -/
def Calm (broker : State machine → ℕ → Choice) (i : ℕ) (s : Loops) (a : Action) : Prop :=
  (∃ j choice, a = .statement j choice ∧ ∀ p proc topic document, (s.workers j).phase = .batch p →
    s.calls.procs p = some proc → proc.rest.head = some (.send topic document) → choice = broker s.calls p) ∨
  (∃ p, a = .close p) ∨ a = .resume i ∨ a = .leave i

abbrev CalmRuns (broker : State machine → ℕ → Choice) (i : ℕ) : Loops → Loops → Prop :=
  Relation.ReflTransGen fun s t => ∃ a, Calm broker i s a ∧ step s a = some t

variable {broker : State machine → ℕ → Choice}

theorem calm_of_unhindered (owned : Owned w s) {calls : State machine}
    (runs : machine.Runs (Unhindered broker) s.calls calls) :
    CalmRuns broker i s { s with calls } ∧ Owned w { s with calls } := by
  induction runs with
  | refl => exact ⟨.refl, owned⟩
  | @tail u calls _ stepped ih =>
    obtain ⟨a, unhindered, stepped⟩ := stepped
    obtain ⟨path, owned⟩ := ih
    rcases unhindered with ⟨p, choice, rfl, answers⟩ | ⟨p, rfl⟩
    · obtain ⟨proc, stmt, next, result, w', found, rest, _, _⟩ := Machine.step_own stepped
      obtain ⟨j, batch⟩ := owned.owner p proc found (by rw [rest]; exact id)
      have batch : (s.workers j).phase = .batch p := batch
      have sends : (s.workers j).producer.Sends choice := by
        have sound := owned.sound j
        unfold Sound at sound
        rw [show (Loops.workers _ j).phase = .batch p from batch] at sound
        intro missing
        cases missing.symm.trans sound
      have moved : step { s with calls := u } (.statement j choice) = some { s with calls } := by
        simp only [step, batch, stepped, Option.map_some]
        exact if_pos fun _ => sends
      refine ⟨path.tail ⟨_, .inl ⟨j, choice, rfl, ?_⟩, moved⟩,
        owned.call (fun _ _ other => (by cases other)) stepped⟩
      intro q proc' topic document batch' found' head
      cases batch.symm.trans batch'
      exact answers proc' topic document found' head
    · have moved : step { s with calls := u } (.close p) = some { s with calls } := by
        simp only [step, stepped, Option.map_some]
      exact ⟨path.tail ⟨_, .inr (.inl ⟨p, rfl⟩), moved⟩,
        owned.call (fun _ _ other => (by cases other)) stepped⟩

theorem goes_on (leaving : Leaving v) (unfinished : ∀ failed, v.phase ≠ .ended failed)
    (finished : ∀ p, v.phase = .batch p → ∃ proc, calls p = some proc ∧ proc.rest.Finished) :
    ∃ v', v.resume calls = some v' ∨ v.leave = some v' := by
  unfold Leaving at leaving
  unfold Worker.resume Worker.leave
  cases phase : v.phase with
  | absent | scheduled =>
    rw [phase] at leaving
    exact leaving.elim
  | starting | sleeping | stopping => exact ⟨_, .inl rfl⟩
  | polling =>
    rw [phase] at leaving
    have leaving : v.running = false := leaving
    exact ⟨_, .inr (by rw [leaving]; rfl)⟩
  | ended failed => exact absurd phase (unfinished failed)
  | batch p =>
    obtain ⟨proc, found, ended⟩ := finished p phase
    cases rest : proc.rest with
    | ret processed =>
      refine ⟨{ v with phase := if Nat.beq processed 0 then .sleeping else .polling }, .inl ?_⟩
      simp only [found, rest]
    | raise error =>
      refine ⟨{ v with phase := .stopping true }, .inl ?_⟩
      simp only [found, rest]
    | call stmt next =>
      rw [rest] at ended
      exact ended.elim

theorem ends (broker : State machine → ℕ → Choice) (leaving : Leaving (s.workers i))
    (finished : ∀ p proc, s.calls.procs p = some proc → proc.rest.Finished)
    (begun : ∀ p, (s.workers i).phase = .batch p → ∃ proc, s.calls.procs p = some proc) :
    ∃ t, CalmRuns broker i s t ∧ ∃ failed, (t.workers i).phase = .ended failed := by
  induction size : distance (s.workers i).phase using Nat.strong_induction_on generalizing s with
  | _ size ih =>
    by_cases already : ∃ failed, (s.workers i).phase = .ended failed
    · exact ⟨s, .refl, already⟩
    · have done : ∀ p, (s.workers i).phase = .batch p → ∃ proc, s.calls.procs p = some proc ∧
        proc.rest.Finished := by
        intro p batch
        obtain ⟨proc, found⟩ := begun p batch
        exact ⟨proc, found, finished p proc found⟩
      obtain ⟨v, moved⟩ := goes_on leaving (fun failed same => already ⟨failed, same⟩) done
      have moves : Moves s.calls.procs (s.workers i) false v := by
        rcases moved with resumed | left
        · exact moves_of_resume resumed
        · exact moves_of_leave left
      obtain ⟨leaving', nearer⟩ := moves.leaving leaving
      have stepped : ∃ a, Calm broker i s a ∧ step s a = some (s.set i v) := by
        rcases moved with resumed | left
        · exact ⟨.resume i, .inr (.inr (.inl rfl)), by simp only [step, resumed, Option.map_some]⟩
        · exact ⟨.leave i, .inr (.inr (.inr rfl)), by simp only [step, left, Option.map_some]⟩
      obtain ⟨t, later, ended⟩ := ih (distance v.phase) (by omega) (s := s.set i v)
        (by rw [set_self]; exact leaving') finished
        (fun p batch => begun p (moves.batch (by rw [← batch, set_self]))) (by rw [set_self])
      exact ⟨t, .head stepped later, ended⟩

/-- From wherever a worker that has been stopped since it began stands, its task can be brought to its end,
whatever the broker answers. -/
theorem shutdown_completes (opening : s.Opening) (runs : Runs s t) (leaving : Leaving (t.workers i))
    (broker : State machine → ℕ → Choice) :
    ∃ u, CalmRuns broker i t u ∧ ∃ failed, (u.workers i).phase = .ended failed := by
  have owned := owned_of_runs opening runs
  obtain ⟨n, idle⟩ := owned.runs.finite
  have underway : Underway s.calls.world n t.calls := ⟨owned.runs, idle⟩
  obtain ⟨calls, later, _, finished⟩ :=
    Machine.completes (Machine.left allowance n) (Underway.nearer opening.world broker) t.calls underway
  obtain ⟨path, owned'⟩ := calm_of_unhindered owned later
  obtain ⟨u, path', ended⟩ := ends (s := { t with calls }) broker leaving finished (owned'.begun i)
  exact ⟨u, path.trans path', ended⟩

theorem shutdown_completes_sample : ∃ t u, Runs asleep t ∧
    CalmRuns (fun _ _ => .sendFails "broker down" false) 0 t u ∧
    ∃ failed, (u.workers 0).phase = .ended failed := by
  obtain ⟨t, runs, leaving, _⟩ := leaving_of_stopped
  obtain ⟨u, path, ended⟩ := shutdown_completes asleep_opening runs leaving fun _ _ =>
    .sendFails "broker down" false
  exact ⟨t, u, runs, path, ended⟩

/-! A stop that comes too early, and batches that have failed. -/

structure Undisturbed (i : ℕ) (s : Loops) (a : Action) : Prop where
  stop : a ≠ .stop i
  fail : a ≠ .fail i
  batch : ∀ p proc error, (s.workers i).phase = .batch p → s.calls.procs p = some proc →
      proc.rest ≠ .raise error

def Lasting (v : Worker) : Prop :=
  match v.phase with
  | .scheduled => True
  | .starting | .polling | .batch _ | .sleeping => v.running = true
  | _ => False

theorem Moves.lasting (moves : Moves calls v false v') (lasting : Lasting v)
    (smooth : ∀ p proc error, v.phase = .batch p → calls p = some proc → proc.rest ≠ .raise error) :
    Lasting v' := by
  unfold Lasting at lasting
  cases moves with
  | startup => exact trivial
  | run => exact rfl
  | started at_ | slept at_ =>
    rw [at_] at lasting
    exact lasting
  | processed p proc processed batch found returned next goes =>
    rw [batch] at lasting
    cases goes with
    | inl same => exact same ▸ lasting
    | inr same => exact same ▸ lasting
  | crashed p proc error batch found raised => exact absurd raised (smooth p proc error batch found)
  | leave at_ stopped =>
    rw [at_] at lasting
    cases lasting.symm.trans stopped
  | ended _ at_ =>
    rw [at_] at lasting
    exact lasting.elim

theorem Lasting.step {a : Action} (lasting : Lasting (s.workers i)) (undisturbed : Undisturbed i s a)
    (stepped : step s a = some t) : Lasting (t.workers i) := by
  have kept : ∀ {s' : Loops} {j v}, s'.workers = s.workers → (j = i → Lasting v) →
      Lasting ((s'.set j v).workers i) := by
    intro s' j v same new
    exact workers_set (Q := fun k v => k = i → Lasting v) (fun k own => by rw [same, own]; exact lasting) new i rfl
  rcases step_cases stepped with ⟨j, fails, v, _, _, failing, moves, rfl⟩ | ⟨j, rfl, rfl⟩ |
    ⟨j, p, calls, rfl, _, running, started, rfl⟩ | ⟨b, calls, _, _, _, moved, rfl⟩
  · apply kept rfl
    intro same
    subst same
    cases fails with
    | false => exact moves.lasting lasting undisturbed.batch
    | true => exact absurd (failing rfl) undisturbed.fail
  · apply kept rfl
    intro same
    subst same
    exact absurd rfl undisturbed.stop
  · exact kept rfl fun _ => running
  · exact lasting

/-- A stop that comes before the task has made its first step is lost: as long as
nothing fails the task does not end. -/
theorem stop_lost (scheduled : (s.workers i).phase = .scheduled) (stopped : step s (.stop i) = some t) {u : Loops}
    (later : Relation.ReflTransGen (fun s t => ∃ a, Undisturbed i s a ∧ step s a = some t) t u) (failed : Bool) :
    (u.workers i).phase ≠ .ended failed := by
  have lasting : Lasting (u.workers i) := by
    induction later with
    | refl =>
      cases stopped
      rw [set_self]
      unfold Lasting Worker.stop
      rw [scheduled]
      trivial
    | tail _ stepped ih =>
      obtain ⟨a, undisturbed, stepped⟩ := stepped
      exact ih.step undisturbed stepped
  intro ended
  unfold Lasting at lasting
  rw [ended] at lasting
  exact lasting

theorem undisturbed_of_idle {a : Action} (stop : a ≠ .stop i) (fail : a ≠ .fail i)
    (idle : ∀ p, (s.workers i).phase ≠ .batch p) :
    Undisturbed i s a := ⟨stop, fail, fun p _ _ batch => absurd batch (idle p)⟩

theorem stop_lost_sample : ∃ s t u, Runs asleep s ∧ step s (.stop 0) = some t ∧ Runs t u ∧
    (u.workers 0).phase = .polling ∧ ∀ failed, (u.workers 0).phase ≠ .ended failed := by
  let s := asleep.set 0 ⟨100, false, .none, .scheduled⟩
  let t := s.set 0 ⟨100, false, .none, .scheduled⟩
  let v := t.set 0 ⟨100, true, .created, .starting⟩
  let u := v.set 0 ⟨100, true, .started, .polling⟩
  have created : step asleep (.startup 0) = some s := rfl
  have stopped : step s (.stop 0) = some t := rfl
  have runs : step t (.run 0) = some v := rfl
  have starts : step v (.resume 0) = some u := rfl
  have first : Undisturbed 0 t (.run 0) := undisturbed_of_idle nofun nofun fun p => nofun
  have second : Undisturbed 0 v (.resume 0) := undisturbed_of_idle nofun nofun fun p => nofun
  exact ⟨s, t, u, .single ⟨_, created⟩, stopped, .tail (.single ⟨_, runs⟩) ⟨_, starts⟩, rfl,
    stop_lost rfl stopped (.tail (.single ⟨_, first, runs⟩) ⟨_, second, starts⟩)⟩

/-- The worker publishes nothing more: its task has not been created or has left the
loop, or its batch has raised an exception. -/
def Doomed (calls : ℕ → Option (Proc machine)) (v : Worker) : Prop :=
  match v.phase with
  | .absent | .stopping _ | .ended _ => True
  | .batch p => ∃ proc error, calls p = some proc ∧ proc.rest = .raise error
  | _ => False

def Action.isStartup : Action → Bool
  | .startup _ => true
  | _ => false

/-- What is in the topic and what is in the outbox stays as it is, but for the clock and for new events. -/
structure Silent (w w' : World) : Prop where
  log : w'.log = w.log
  rows : ∀ eventId row, w.events.rows.lookup eventId = some row → w'.events.rows.lookup eventId = some row

theorem Silent.of_tick {w w' : World} {e : Tick} (ticked : World.tick e w = some w') : Silent w w' := by
  cases e with
  | elapse microseconds =>
    cases ticked
    exact ⟨rfl, fun _ _ stored => stored⟩
  | post eventId aggregateId eventType payload createdAt =>
    simp only [World.tick] at ticked
    split_ifs at ticked with used
    cases ticked
    refine ⟨rfl, fun id row stored => ?_⟩
    have other : id ≠ eventId := by
      intro same
      subst same
      exact used (.inl (AList.lookup_isSome.1 (by rw [stored]; rfl)))
    exact (AList.lookup_insert_ne other).trans stored

theorem Silent.refl (w : World) : Silent w w := ⟨rfl, fun _ _ stored => stored⟩

theorem Silent.trans {w w' w'' : World} (first : Silent w w') (second : Silent w' w'') : Silent w w'' :=
  ⟨second.log.trans first.log, fun eventId row stored => second.rows eventId row (first.rows eventId row stored)⟩

theorem Doomed.of_stopping {failed : Bool} (phase : v.phase = .stopping failed) : Doomed calls v := by
  unfold Doomed
  rw [phase]
  trivial

theorem Doomed.goes (doomed : Doomed calls v) :
    v.run = none ∧ v.leave = none ∧ v.phase ≠ .polling ∧
    (∀ v', v.resume calls = some v' → Doomed calls v') ∧
      ∀ v', v.fail = some v' → Doomed calls v' := by
  unfold Doomed at doomed
  unfold Worker.run Worker.leave Worker.resume Worker.fail
  cases phase : v.phase with
  | scheduled | starting | polling | sleeping =>
    rw [phase] at doomed
    exact doomed.elim
  | absent | ended => exact ⟨rfl, rfl, nofun, fun _ => nofun, fun _ => nofun⟩
  | stopping failed =>
    refine ⟨rfl, rfl, nofun, fun v' same => ?_, fun v' same => ?_⟩
    · cases same
      exact trivial
    · cases same
      exact trivial
  | batch p =>
    rw [phase] at doomed
    obtain ⟨proc, error, found, raised⟩ := doomed
    refine ⟨rfl, rfl, nofun, fun v' same => ?_, fun _ => nofun⟩
    simp only [found, raised] at same
    cases same
    exact .of_stopping rfl

theorem Doomed.still {v : Worker} {calls : State machine} (doomed : Doomed calls.procs v) (batch : v.phase = .batch p)
    (choice : Choice) : machine.step calls (.step p choice) = none ∧ machine.step calls (.abort p) = none := by
  unfold Doomed at doomed
  rw [batch] at doomed
  obtain ⟨proc, error, found, raised⟩ := doomed
  have found : calls.procs p = some proc := found
  constructor
  · simp only [Machine.step, found, Machine.advance, raised]
  · simp only [Machine.step, found, raised]
    exact if_pos trivial

theorem Doomed.step {a : Action} (doomed : ∀ i, Doomed s.calls.procs (s.workers i)) (absent : a.isStartup = false)
    (stepped : step s a = some t) :
    (∀ i, Doomed t.calls.procs (t.workers i)) ∧ Silent s.calls.world t.calls.world := by
  have silent := Silent.refl s.calls.world
  have kept : ∀ {i v}, Doomed s.calls.procs v → ∀ j, Doomed s.calls.procs ((s.set i v).workers j) :=
    fun after => workers_set (Q := fun _ => Doomed s.calls.procs) doomed after
  cases a with
  | startup i => cases absent
  | run i =>
    obtain ⟨v, moved, rfl⟩ := Option.map_eq_some_iff.1 stepped
    cases (doomed i).goes.1.symm.trans moved
  | leave i =>
    obtain ⟨v, moved, rfl⟩ := Option.map_eq_some_iff.1 stepped
    cases (doomed i).goes.2.1.symm.trans moved
  | resume i =>
    obtain ⟨v, moved, rfl⟩ := Option.map_eq_some_iff.1 stepped
    exact ⟨kept ((doomed i).goes.2.2.2.1 v moved), silent⟩
  | fail i =>
    obtain ⟨v, moved, rfl⟩ := Option.map_eq_some_iff.1 stepped
    exact ⟨kept ((doomed i).goes.2.2.2.2 v moved), silent⟩
  | poll i p =>
    simp only [Loops.step] at stepped
    split_ifs at stepped with polls
    exact absurd polls.1 (doomed i).goes.2.2.1
  | stop i =>
    cases stepped
    exact ⟨kept (doomed i), silent⟩
  | statement i choice =>
    simp only [Loops.step] at stepped
    split at stepped
    · rename_i p batch
      split_ifs at stepped
      obtain ⟨calls, moved, rfl⟩ := Option.map_eq_some_iff.1 stepped
      cases ((doomed i).still batch choice).1.symm.trans moved
    · cases stepped
  | interrupt i =>
    simp only [Loops.step] at stepped
    split at stepped
    · rename_i p batch
      obtain ⟨calls, moved, rfl⟩ := Option.map_eq_some_iff.1 stepped
      cases ((doomed i).still batch .proceed).2.symm.trans moved
    · cases stepped
  | close p =>
    obtain ⟨calls, closed, rfl⟩ := Option.map_eq_some_iff.1 stepped
    obtain ⟨_, _, _, rfl⟩ := Machine.step_close closed
    exact ⟨doomed, rfl, fun _ _ stored => stored⟩
  | tick e =>
    obtain ⟨calls, ticked, rfl⟩ := Option.map_eq_some_iff.1 stepped
    rcases Machine.step_cases ticked with ⟨_, _, same, _⟩ | ⟨_, _, _, _, _, _, _, same, _⟩ |
      ⟨_, _, same, _⟩ | ⟨_, _, same, _⟩ | ⟨_, w', same, moved, rfl⟩
    · cases same
    · cases same
    · cases same
    · cases same
    · cases same
      exact ⟨doomed, .of_tick moved⟩

/-- An exception that leaves a batch ends its task, and the task is not created again: once this has befallen
every worker, nothing is published any more, and every event stays as it is, whatever the ledger posts. -/
theorem silence (doomed : ∀ i, Doomed s.calls.procs (s.workers i))
    (later : Relation.ReflTransGen (fun s t => ∃ a : Action, a.isStartup = false ∧ step s a = some t) s t) :
    Silent s.calls.world t.calls.world := by
  have kept : (∀ i, Doomed t.calls.procs (t.workers i)) ∧ Silent s.calls.world t.calls.world := by
    induction later with
    | refl => exact ⟨doomed, .refl _⟩
    | tail _ stepped ih =>
      obtain ⟨a, absent, stepped⟩ := stepped
      obtain ⟨doomed', silent⟩ := Doomed.step ih.1 absent stepped
      exact ⟨doomed', ih.2.trans silent⟩
  exact kept.2

/-- A statement of the only worker fails: the event is never published, nor is one that the ledger posts later. -/
theorem silence_sample : ∃ s t, Runs asleep s ∧
    step s (.tick (.post 6 4 "DEPOSIT_POSTED" (.obj []) 1)) = some t ∧ Silent s.calls.world t.calls.world := by
  let s₁ := asleep.set 0 ⟨100, false, .none, .scheduled⟩
  let s₂ := s₁.set 0 ⟨100, true, .created, .starting⟩
  let s₃ := s₂.set 0 ⟨100, true, .started, .polling⟩
  let calls : State machine := ⟨outbox,
    Function.update (fun _ => none) 7 (some (machine.spawn (100 : ℕ) outbox))⟩
  let s₄ := { s₃ with calls }.set 0 ⟨100, true, .started, .batch 7⟩
  let s : Loops := { s₄ with calls := ⟨outbox,
    Function.update calls.procs 7 (some ⟨(100 : ℕ), outbox, [], .raise .failure⟩)⟩ }
  let w : World := { outbox with events := outbox.events.add 6 (createOutboxEvent 6 4 "DEPOSIT_POSTED" (.obj []) 1) }
  let t : Loops := { s with calls := ⟨w, s.calls.procs⟩ }
  have failed : (launch ++ [Action.interrupt 0]).foldlM step asleep = some s := rfl
  have posted : step s (.tick (.post 6 4 "DEPOSIT_POSTED" (.obj []) 1)) = some t := rfl
  have doomed : ∀ i, Doomed s.calls.procs (s.workers i) := by
    intro i
    by_cases same : i = 0
    · subst same
      exact ⟨_, .failure, rfl, rfl⟩
    · have absent : s.workers i = asleep.workers i := by
        simp only [s, s₄, s₃, s₂, s₁, set, Function.update_of_ne same]
      rw [absent]
      trivial
  exact ⟨s, t, reaches_of_actions failed, posted, silence doomed (.single ⟨_, rfl, posted⟩)⟩

end Loops
end LedgerFlow.Outbox
