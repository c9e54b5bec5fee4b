import LedgerFlow.Consumers.Projection
import LedgerFlow.Ledger.Atomicity
import LedgerFlow.Outbox.Publication
import LedgerFlow.Outbox.Rows

/-! The whole system: the ledger service and the outbox workers on one database, the topic that the workers
write to, and the consumers that are handed its messages. -/

namespace LedgerFlow.Pipeline
open Concurrency Ledger

structure State (env : Deployment) where
  ledger : Concurrency.State (Ledger.machine env)
  workers : Concurrency.State Outbox.machine
  consumers : Concurrency.State Consumers.machine

inductive Action (env : Deployment) where
  | ledger (a : Concurrency.Action (Ledger.machine env))
  | workers (a : Concurrency.Action Outbox.machine)
  | consumers (a : Concurrency.Action Consumers.machine)

def post (events : List Outbox.OutboxEvent) (s : Concurrency.State Outbox.machine) :
    Concurrency.State Outbox.machine :=
  { s with world := { (s.world : Outbox.World) with
    events := events.foldl (fun store event => store.add event.eventId event) (s.world : Outbox.World).events } }

/-- A consumer is handed nothing but what is in the topic, in any order and any number of times. -/
def delivered (w : Outbox.World) : Concurrency.Action Consumers.machine → Bool
  | .start _ message => ((message : Consumers.Message).topic, (message : Consumers.Message).value) ∈ w.log
  | _ => true

variable {env : Deployment}

def step (s : State env) : Action env → Option (State env)
  | .ledger a =>
    match (Ledger.machine env).step s.ledger a with
    | none => none
    | some t =>
      let events := (t.world : Ledger.World).db.events.drop (s.ledger.world : Ledger.World).db.events.length
      some { s with ledger := t, workers := post events s.workers }
  | .workers a =>
    if Outbox.isOwn a then
      match Outbox.machine.step s.workers a with
      | none => none
      | some t => some { s with workers := t }
    else none
  | .consumers a =>
    if delivered s.workers.world a then
      match Consumers.machine.step s.consumers a with
      | none => none
      | some t => some { s with consumers := t }
    else none

abbrev Runs : State env → State env → Prop := Relation.ReflTransGen fun s t => ∃ a, step s a = some t

def initial (env : Deployment) (w : Ledger.World) (o : Outbox.World) (c : Consumers.World) : State env :=
  ⟨(Ledger.machine env).initial w, Outbox.machine.initial o, Consumers.machine.initial c⟩

structure Opening (w : Ledger.World) (o : Outbox.World) (c : Consumers.World) : Prop where
  ledger : w.Opening
  transactions : w.db.transactions = []
  entries : w.db.entries = []
  events : w.db.events = []
  workers : o.Opening
  outbox : o.events.rows = ∅
  topic : o.log = []
  consumers : c.Opening
  processed : c.processed.rows = ∅
  projections : c.projections.rows = ∅

variable {s t : State env} {a : Action env}

theorem step_cases (stepped : step s a = some t) :
    (∃ b u, (Ledger.machine env).step s.ledger b = some u ∧ t = { s with
      ledger := u
      workers := post ((u.world : Ledger.World).db.events.drop
          (s.ledger.world : Ledger.World).db.events.length) s.workers }) ∨
    (∃ b u, Outbox.isOwn b ∧ Outbox.machine.step s.workers b = some u ∧ t = { s with workers := u }) ∨
    ∃ b u, delivered s.workers.world b ∧ Consumers.machine.step s.consumers b = some u ∧
      t = { s with consumers := u } := by
  cases a with
  | ledger b =>
    cases moved : (Ledger.machine env).step s.ledger b with
    | none => simp [step, moved] at stepped
    | some u => exact .inl ⟨b, u, moved, by simpa [step, moved] using stepped.symm⟩
  | workers b =>
    by_cases own : Outbox.isOwn b
    · cases moved : Outbox.machine.step s.workers b with
      | none => simp [step, own, moved] at stepped
      | some u => exact .inr (.inl ⟨b, u, own, moved, by simpa [step, own, moved] using stepped.symm⟩)
    · simp [step, own] at stepped
  | consumers b =>
    by_cases handed : delivered s.workers.world b
    · cases moved : Consumers.machine.step s.consumers b with
      | none => simp [step, handed, moved] at stepped
      | some u => exact .inr (.inr ⟨b, u, handed, moved, by simpa [step, handed, moved] using stepped.symm⟩)
    · simp [step, handed] at stepped

end LedgerFlow.Pipeline
