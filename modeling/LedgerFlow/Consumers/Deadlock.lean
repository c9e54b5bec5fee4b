import LedgerFlow.Concurrency.Acyclic
import LedgerFlow.Concurrency.Trace
import LedgerFlow.Consumers.Projection

/-! The wait-for graph between the transactions of concurrent consumers: it has no cycle as long as the
transfer events that are processed at a time form no cycle from source to destination. -/

namespace LedgerFlow.Consumers
open Concurrency

def nextStmt (p : ℕ) (s : State machine) : Option Stmt := (s.procs p).bind fun proc => proc.rest.head

/-- The transaction of `q` holds the lock that the statement of session `p` needs. -/
def Blocks (q p : ℕ) (w : World) : Stmt → Prop
  | .insertProcessed eventId _ _ => q ≠ p ∧ w.processed.locks eventId = some q
  | .upsert accountId _ _ => q ≠ p ∧ w.projections.locks accountId = some q
  | _ => False

/-- The edges of the wait-for graph: the next statement of `p` waits for the transaction of `q` to end. -/
def WaitsFor (s : State machine) (p q : ℕ) : Prop :=
  ∃ stmt, nextStmt p s = some stmt ∧ (∀ choice, exec p stmt choice s.world = none) ∧ Blocks q p s.world stmt

def DeadlockFree (ok : State machine → Action machine → Prop) : Prop :=
  ∀ {w : World} {s : State machine}, w.Opening → machine.Runs ok (machine.initial w) s → Acyclic (WaitsFor s)

/-- The event of the message is none of those that the other calls have been handed. -/
def Distinct (s : State machine) (a : Action machine) : Prop :=
  ∀ p (message : Message), a = .start p message → ∀ q (proc : Proc machine), s.procs q = some proc →
    eventIdOf (Message.value proc.request) ≠ eventIdOf message.value

/-- The event moves money from one account to another one. -/
def Transfers (message : Message) (source destination : UUID) : Prop :=
  source ≠ destination ∧ ∃ changes, deltas message.value = .ok changes ∧
    changes.map Prod.fst = [source, destination]

/-- The call has neither committed nor rolled back its transaction. -/
def Transacting (proc : Proc machine) : Prop :=
  ¬proc.rest.Finished ∧ ∀ executed ∈ proc.past, executed.1 ≠ .commit ∧ executed.1 ≠ .rollback

def InFlight (s : State machine) (source destination : UUID) : Prop :=
  ∃ p proc, s.procs p = some proc ∧ Transacting proc ∧ Transfers proc.request source destination

/-- No transfer is started whose destination leads back to its source through those that are being processed. -/
def InOrder (s : State machine) (a : Action machine) : Prop :=
  ∀ p message source destination, a = .start p message → Transfers message source destination →
    ¬Relation.ReflTransGen (InFlight s) destination source

/-! What a call has locked. -/

structure Locking where
  events : List UUID
  accounts : List UUID
  ended : Bool

namespace Locking

def after (φ : Locking) : (stmt : Stmt) → stmt.Result → Locking
  | .insertProcessed eventId _ _, .ok () => { φ with events := eventId :: φ.events }
  | .upsert accountId _ _, .ok () => { φ with accounts := φ.accounts ++ [accountId] }
  | .commit, _ => ⟨[], [], true⟩
  | .rollback, _ => ⟨[], [], true⟩
  | _, _ => φ

/-- The statements that a call may execute now: the upserts in the order of the event, in its first transaction. -/
def Allows (message : Message) (φ : Locking) : Stmt → Prop
  | .insertProcessed _ _ _ => φ = ⟨[], [], false⟩
  | .upsert accountId _ _ => φ.ended = false ∧ ∃ changes, deltas message.value = .ok changes ∧
      List.IsPrefix (φ.accounts ++ [accountId]) (changes.map Prod.fst)
  | _ => True

end Locking

def locking : Protocol machine Locking := ⟨⟨[], [], false⟩, Locking.after, Locking.Allows⟩

abbrev Locks (message : Message) {α : Type} (φ : Locking) (code : Code α) (Q : Locking → α → Prop) : Prop :=
  locking.Follows message Q (fun _ _ => True) φ code

namespace Locks
variable {message : Message} {φ : Locking}

theorem checked {α : Type} {Q : Locking → α → Prop} {result : Except PyError α}
    (holds : ∀ value, result = .ok value → Q φ value) : Locks message φ (Consumers.checked result) Q := by
  cases result with
  | ok value => exact holds value rfl
  | error error => trivial

theorem rollback : Locks message φ Consumers.rollback fun _ _ => True := ⟨trivial, fun _ _ => trivial⟩

theorem commit : Locks message φ Consumers.commit fun _ _ => True := ⟨trivial, fun _ _ => trivial⟩

theorem commitMessageOffset : Locks message φ (Consumers.commitMessageOffset message) fun _ _ => True := by
  refine ⟨trivial, fun taken _ => ?_⟩
  cases taken <;> trivial

theorem applyAll {all changes : List (UUID × Decimal.Number)} (decoded : deltas message.value = .ok all)
    (first : φ.ended = false) (made : φ.accounts ++ changes.map Prod.fst = all.map Prod.fst) :
    Locks message φ (Consumers.applyAll changes) fun _ _ => True := by
  induction changes generalizing φ with
  | nil => trivial
  | cons change changes ih =>
    have next : (φ.accounts ++ [change.1]) ++ changes.map Prod.fst = all.map Prod.fst := by
      rw [← made, List.append_assoc]
      rfl
    refine ⟨trivial, fun now _ => ⟨⟨first, all, decoded, _, next⟩, fun result _ => ?_⟩⟩
    cases result with
    | error error => trivial
    | ok => exact ih first next

theorem applyBalanceProjection (unlocked : φ.accounts = []) (first : φ.ended = false) :
    Locks message φ (Consumers.applyBalanceProjection message.value) fun _ _ => True := by
  rw [applyBalanceProjection_eq]
  apply Protocol.Follows.bind (checked (Q := fun ψ changes => ψ = φ ∧ deltas message.value = .ok changes)
    fun changes decoded => ⟨rfl, decoded⟩)
  intro ψ changes decoded
  obtain ⟨rfl, decoded⟩ := decoded
  apply applyAll decoded first
  rw [unlocked, List.nil_append]

theorem markEventProcessed (eventId : UUID) (eventType : Json) : Locks message locking.start
    (Consumers.markEventProcessed eventId eventType) fun ψ registered => registered = true →
      ψ.accounts = [] ∧ ψ.ended = false := by
  refine ⟨trivial, fun processedAt _ => ⟨rfl, fun flushed _ => ?_⟩⟩
  cases flushed with
  | ok => exact fun _ => ⟨rfl, rfl⟩
  | error error =>
    cases error
    case integrityError => exact ⟨trivial, fun _ _ => nofun⟩
    all_goals trivial

theorem processEvent (eventId : UUID) (eventType : Json) :
    Locks message locking.start (Consumers.processEvent message eventId eventType) fun _ _ => True := by
  apply Protocol.Follows.bind (markEventProcessed eventId eventType)
  intro ψ registered unlocked
  cases registered with
  | true =>
    obtain ⟨unlocked, first⟩ := unlocked rfl
    apply Protocol.Follows.bind (applyBalanceProjection unlocked first)
    intro _ _ _
    exact Protocol.Follows.bind commit fun _ _ _ => trivial
  | false =>
    apply Protocol.Follows.bind rollback
    intro _ _ _
    exact Protocol.Follows.bind commitMessageOffset fun _ _ _ => trivial

theorem processMessage (message : Message) :
    Locks message locking.start (Consumers.processMessage message) fun _ _ => True := by
  have same : ∀ {α : Type} (result : Except PyError α),
      Locks message locking.start (Consumers.checked result) fun ψ _ => ψ = locking.start := fun _ =>
        checked fun _ _ => rfl
  apply Protocol.Follows.bind (same _)
  intro _ value start
  subst start
  apply Protocol.Follows.bind (same _)
  intro _ eventId start
  subst start
  apply Protocol.Follows.bind (same _)
  intro _ eventType start
  subst start
  have givesUp : ∀ (φ : Locking) (error : PyError),
      Locks message φ (Consumers.rollback >>= fun _ => (.raise error : Code Bool)) fun _ _ => True :=
    fun _ _ => ⟨trivial, fun _ _ => trivial⟩
  apply Protocol.Follows.bind ((processEvent eventId eventType).attempt fun φ error _ => givesUp φ error)
  intro _ unacknowledged _
  cases unacknowledged with
  | true => exact commitMessageOffset
  | false => trivial

end Locks

variable {p q : ℕ} {φ : Locking} {w w' : World} {stmt : Stmt} {choice : Choice} {result : stmt.Result}
  {s t : State machine} {a : Action machine} {ok : State machine → Action machine → Prop} {proc : Proc machine}
  {trace : List (Executed language)} {source destination : UUID}

theorem locks_of_exec (executed : exec q stmt choice w = some (result, w')) (other : p ≠ q) :
    (∀ eventId, w'.processed.locks eventId = some p → w.processed.locks eventId = some p) ∧
      ∀ accountId, w'.projections.locks accountId = some p → w.projections.locks accountId = some p := by
  cases stmt with
  | now =>
    cases executed
    exact ⟨fun _ locked => locked, fun _ locked => locked⟩
  | insertProcessed eventId eventType processedAt =>
    rcases exec_insertProcessed executed with ⟨_, rfl⟩ | ⟨row, _, _, _, rfl⟩
    · exact ⟨fun _ locked => locked, fun _ locked => locked⟩
    · refine ⟨fun id locked => ?_, fun _ locked => locked⟩
      rcases Store.locks_draft_iff.1 locked with ⟨_, same⟩ | ⟨_, before⟩
      · exact absurd same.symm other
      · exact before
  | upsert accountId delta updatedAt =>
    rcases exec_upsert executed with ⟨_, rfl⟩ | ⟨row, _, _, _, rfl⟩
    · exact ⟨fun _ locked => locked, fun _ locked => locked⟩
    · refine ⟨fun _ locked => locked, fun id locked => ?_⟩
      rcases Store.locks_draft_iff.1 locked with ⟨_, same⟩ | ⟨_, before⟩
      · exact absurd same.symm other
      · exact before
  | commit | rollback =>
    cases executed
    exact ⟨fun _ locked => (Store.locks_finish_iff.1 locked).1, fun _ locked =>
      (Store.locks_finish_iff.1 locked).1⟩
  | commitOffset topic partition offset =>
    cases choice <;> cases executed <;> exact ⟨fun _ locked => locked, fun _ locked => locked⟩

structure Holds (p : ℕ) (φ : Locking) (w : World) : Prop where
  events : ∀ eventId, w.processed.locks eventId = some p → eventId ∈ φ.events
  accounts : ∀ accountId, w.projections.locks accountId = some p → accountId ∈ φ.accounts

theorem Holds.exec (holds : Holds p φ w) (executed : exec p stmt choice w = some (result, w')) :
    Holds p (φ.after stmt result) w' := by
  cases stmt with
  | now =>
    cases executed
    exact holds
  | insertProcessed eventId eventType processedAt =>
    rcases exec_insertProcessed executed with ⟨⟨error, rfl, _⟩, rfl⟩ | ⟨row, rfl, _, _, rfl⟩
    · exact ⟨holds.events, holds.accounts⟩
    · refine ⟨fun id locked => ?_, holds.accounts⟩
      rcases Store.locks_draft_iff.1 locked with ⟨rfl, _⟩ | ⟨_, before⟩
      · exact List.mem_cons_self
      · exact List.mem_cons_of_mem _ (holds.events id before)
  | upsert accountId delta updatedAt =>
    rcases exec_upsert executed with ⟨⟨error, rfl⟩, rfl⟩ | ⟨row, rfl, _, _, rfl⟩
    · exact ⟨holds.events, holds.accounts⟩
    · refine ⟨holds.events, fun id locked => ?_⟩
      rcases Store.locks_draft_iff.1 locked with ⟨rfl, _⟩ | ⟨_, before⟩
      · exact List.mem_append_right _ List.mem_cons_self
      · exact List.mem_append_left _ (holds.accounts id before)
  | commit | rollback =>
    cases executed
    exact ⟨fun _ locked => absurd rfl (Store.locks_finish_iff.1 locked).2,
      fun _ locked => absurd rfl (Store.locks_finish_iff.1 locked).2⟩
  | commitOffset topic partition offset =>
    cases choice <;> cases executed <;> exact ⟨holds.events, holds.accounts⟩

theorem holds_of_traces (opening : w.Opening) (traces : machine.Traces ok (machine.initial w) trace s)
    (running : Protocol.Open s p) : Holds p (locking.phase p trace) s.world := by
  apply Protocol.knows_of_traces (P := locking) (K := Holds) _ _ _ traces running
  · intro p
    refine ⟨fun eventId locked => ?_, fun accountId locked => ?_⟩
    · cases (opening.processed.locks eventId).symm.trans locked
    · cases (opening.projections.locks accountId).symm.trans locked
  · intro trace s p proc choice stmt next result w' _ _ _ _ executed holds
    exact holds.exec executed
  · intro trace s t a q _ _ stepped notMine notClosed _ holds
    rcases Machine.step_cases stepped with ⟨p, request, rfl, fresh, rfl⟩ |
      ⟨p, choice, proc, stmt, next, result, w', rfl, found, rest, executed, rfl⟩ |
      ⟨p, proc, rfl, _, _, rfl⟩ | ⟨p, proc, rfl, _, _, rfl⟩ | ⟨e, w', rfl, ticked, rfl⟩
    · exact holds
    · have other : q ≠ p := fun same => notMine choice (by rw [same])
      have before := locks_of_exec executed other
      exact ⟨fun id locked => holds.events id (before.1 id locked), fun id locked =>
        holds.accounts id (before.2 id locked)⟩
    · exact holds
    · exact ⟨fun id locked => holds.events id (Store.locks_finish_iff.1 locked).1,
        fun id locked => holds.accounts id (Store.locks_finish_iff.1 locked).1⟩
    · cases ticked
      exact ⟨holds.events, holds.accounts⟩

theorem allowed_of_traces (traces : machine.Traces ok (machine.initial w) trace s) (found : s.procs p = some proc)
    {next : stmt.Result → Code Unit} (rest : proc.rest = .call stmt next) :
    (locking.phase p trace).Allows proc.request stmt := by
  have follows : locking.Follows proc.request (fun _ _ => True) (fun _ _ => True) (locking.phase p trace) proc.rest :=
    Protocol.follows_of_traces (Φ := fun _ => True) (Q := fun _ _ _ => True) (fun _ _ _ _ => trivial)
      (fun message _ => Locks.processMessage message) (fun _ => trivial) traces found
  rw [rest] at follows
  exact follows.1

theorem transacting_of_traces (traces : machine.Traces ok (machine.initial w) trace s) (found : s.procs p = some proc)
    (running : ¬proc.rest.Finished) (first : (locking.phase p trace).ended = false) : Transacting proc := by
  refine ⟨running, Protocol.records_of_traces (P := locking) (R := fun _ φ past => φ.ended = false →
    ∀ executed ∈ past, executed.1 ≠ .commit ∧ executed.1 ≠ .rollback) (fun _ _ => List.forall_mem_nil _) ?_
      traces found first⟩
  intro trace s p proc choice stmt next result w' _ _ _ _ _ recorded
  cases stmt with
  | commit | rollback => exact fun going => by cases going
  | insertProcessed | upsert | commitOffset =>
    refine fun going => List.forall_mem_cons.2 ⟨⟨nofun, nofun⟩, recorded ?_⟩
    cases result <;> exact going
  | now => exact fun going => List.forall_mem_cons.2 ⟨⟨nofun, nofun⟩, recorded going⟩

theorem nextStmt_cases (next : nextStmt p s = some stmt) :
    ∃ proc rest, s.procs p = some proc ∧ proc.rest = .call stmt rest := by
  obtain ⟨proc, found, head⟩ := Option.bind_eq_some_iff.1 next
  refine ⟨proc, ?_⟩
  cases call : proc.rest with
  | call stmt' rest =>
    rw [call] at head
    cases head
    exact ⟨rest, found, rfl⟩
  | _ =>
    rw [call] at head
    cases head

structure StuckOn (s : State machine) (o : ℕ) (accountId : UUID) (p : ℕ) : Prop where
  next : ∃ delta updatedAt, nextStmt o s = some (.upsert accountId delta updatedAt)
  locked : (World.projections s.world).locks accountId = some p

def Locked (s : State machine) (p : ℕ) : Prop :=
  (∃ eventId, (World.processed s.world).locks eventId = some p) ∨ ∃ x,
    (World.projections s.world).locks x = some p

theorem WaitsFor.locked (waits : WaitsFor s p q) : q ≠ p ∧ Locked s q := by
  obtain ⟨stmt, _, _, blocks⟩ := waits
  cases stmt with
  | insertProcessed eventId _ _ => exact ⟨blocks.1, .inl ⟨eventId, blocks.2⟩⟩
  | upsert x _ _ => exact ⟨blocks.1, .inr ⟨x, blocks.2⟩⟩
  | _ => exact absurd blocks id

/-- A process with a lock has registered its event, so that it can only wait for an account. -/
theorem stuckOn_of_waits {r : ℕ} (opening : w.Opening) (traces : machine.Traces ok (machine.initial w) trace s)
    (locked : Locked s p) (waits : WaitsFor s p r) : ∃ x, StuckOn s p x r := by
  obtain ⟨stmt, next, _, blocks⟩ := waits
  obtain ⟨proc, rest, found, call⟩ := nextStmt_cases next
  have allowed := allowed_of_traces traces found call
  have holds := holds_of_traces opening traces (Protocol.open_of_call found call)
  cases stmt with
  | insertProcessed eventId eventType processedAt =>
    have start : locking.phase p trace = ⟨[], [], false⟩ := allowed
    rw [start] at holds
    rcases locked with ⟨eventId', locked⟩ | ⟨x, locked⟩
    · cases holds.events eventId' locked
    · cases holds.accounts x locked
  | upsert x delta updatedAt => exact ⟨x, ⟨delta, updatedAt, next⟩, blocks.2⟩
  | _ => exact absurd blocks id

theorem of_bind {α β : Type} {P : β → Prop} {x : Except PyError α} {f : α → Except PyError β}
    (rest : ∀ a b, f a = .ok b → P b) : ∀ b, (x >>= f) = .ok b → P b := by
  intro b decoded
  cases x with
  | error error => cases decoded
  | ok a => exact rest a b decoded

theorem of_ok {β : Type} {P : β → Prop} {a : β} (holds : P a) : ∀ b,
    (.ok a : Except PyError β) = .ok b → P b := by
  intro b decoded
  cases decoded
  exact holds

theorem length_deltas (event : Json) : ∀ changes, deltas event = .ok changes → changes.length ≤ 2 := by
  unfold deltas
  apply of_bind
  intro eventType
  apply of_bind
  intro payload
  split_ifs
  · iterate 4
      apply of_bind
      intro _
    exact of_ok (by simp)
  · iterate 5
      apply of_bind
      intro _
    exact of_ok (by simp)
  · iterate 7
      apply of_bind
      intro _
    exact of_ok (by simp)
  · exact of_ok (by simp)

/-- A process that waits for a second account is handling a transfer from the first one to it. -/
theorem inFlight_of_stuckOn {o r : ℕ} {x y : UUID} (opening : w.Opening)
    (traces : machine.Traces ok (machine.initial w) trace s) (stuck : StuckOn s o x p) (next : StuckOn s p y r)
    (other : r ≠ p) : InFlight s x y := by
  obtain ⟨delta, updatedAt, call⟩ := next.next
  obtain ⟨proc, rest, found, call⟩ := nextStmt_cases call
  have running := Protocol.open_of_call found call
  have locked := (holds_of_traces opening traces running).accounts x stuck.locked
  obtain ⟨first, changes, decoded, tail, order⟩ := allowed_of_traces traces found call
  have short : (changes.map Prod.fst).length ≤ 2 := (List.length_map ..).trans_le (length_deltas _ _ decoded)
  have different : x ≠ y := by
    intro same
    subst same
    exact other (Option.some.inj (next.locked.symm.trans stuck.locked))
  refine ⟨p, proc, found, transacting_of_traces traces found (running proc found) first, different,
    changes, decoded, ?_⟩
  cases accounts : (locking.phase p trace).accounts with
  | nil =>
    rw [accounts] at locked
    cases locked
  | cons account more =>
    rw [accounts] at locked order
    have length := congrArg List.length order
    simp only [List.length_append, List.length_cons, List.length_nil] at length
    obtain rfl : more = [] := List.eq_nil_of_length_eq_zero (by omega)
    obtain rfl : tail = [] := List.eq_nil_of_length_eq_zero (by omega)
    rw [← order, List.mem_singleton.1 locked]
    rfl

theorem inFlight_of_step (stepped : machine.step s a = some t) {x y : UUID} (flies : InFlight t x y) :
    InFlight s x y ∨ ∃ p message, a = .start p message ∧ Transfers message x y := by
  obtain ⟨p, proc, found, ⟨running, past⟩, transfers⟩ := flies
  rcases Machine.step_cases stepped with ⟨q, request, rfl, fresh, rfl⟩ |
    ⟨q, choice, before, stmt, next, result, w', rfl, found', rest, executed, rfl⟩ |
    ⟨q, before, rfl, found', unfinished, rfl⟩ | ⟨q, before, rfl, found', finished, rfl⟩ |
      ⟨e, w', rfl, ticked, rfl⟩
  · rcases Machine.found_update found with ⟨rfl, rfl⟩ | ⟨_, found⟩
    · exact .inr ⟨p, request, rfl, transfers⟩
    · exact .inl ⟨p, proc, found, ⟨running, past⟩, transfers⟩
  · rcases Machine.found_update found with ⟨rfl, rfl⟩ | ⟨_, found⟩
    · exact .inl ⟨p, before, found', ⟨by rw [rest]; exact id, (List.forall_mem_cons.1 past).2⟩, transfers⟩
    · exact .inl ⟨p, proc, found, ⟨running, past⟩, transfers⟩
  · rcases Machine.found_update found with ⟨rfl, rfl⟩ | ⟨_, found⟩
    · exact absurd trivial running
    · exact .inl ⟨p, proc, found, ⟨running, past⟩, transfers⟩
  · exact .inl ⟨p, proc, found, ⟨running, past⟩, transfers⟩
  · exact .inl ⟨p, proc, found, ⟨running, past⟩, transfers⟩

theorem acyclic_inFlight (runs : machine.Runs InOrder (machine.initial w) s) : Acyclic (InFlight s) := by
  induction runs with
  | refl =>
    apply Acyclic.of_rank (fun _ => 0)
    intro x y flies
    obtain ⟨p, proc, found, _⟩ := flies
    cases found
  | @tail s t runs stepped ih =>
    obtain ⟨a, ordered, stepped⟩ := stepped
    by_cases adds : ∃ p message source destination, a = .start p message ∧ Transfers message source destination
    · obtain ⟨p, message, source, destination, rfl, transfers⟩ := adds
      apply ih.insert _ (ordered p message source destination rfl transfers)
      intro x y flies
      rcases inFlight_of_step stepped flies with before | ⟨p', message', same, transfers'⟩
      · exact .inl before
      · cases same
        obtain ⟨_, changes, decoded, accounts⟩ := transfers
        obtain ⟨_, changes', decoded', accounts'⟩ := transfers'
        cases decoded.symm.trans decoded'
        have both := accounts.symm.trans accounts'
        simp only [List.cons.injEq, and_true] at both
        exact .inr ⟨both.1.symm, both.2.symm⟩
    · apply ih.mono
      intro x y flies
      rcases inFlight_of_step stepped flies with before | ⟨p, message, same, transfers⟩
      · exact before
      · exact absurd ⟨p, message, x, y, same, transfers⟩ adds

theorem StuckOn.unique {o r r' : ℕ} {x y : UUID} (first : StuckOn s o x r) (second : StuckOn s o y r') : x = y := by
  obtain ⟨_, _, next⟩ := first.next
  obtain ⟨_, _, next'⟩ := second.next
  cases next.symm.trans next'
  rfl

theorem stuckOn_of_stuckOn {o r : ℕ} {x : UUID} (opening : w.Opening)
    (traces : machine.Traces ok (machine.initial w) trace s)
    (stuck : StuckOn s o x p) (waits : WaitsFor s p r) : ∃ y, StuckOn s p y r ∧ InFlight s x y := by
  obtain ⟨y, next⟩ := stuckOn_of_waits opening traces (.inr ⟨x, stuck.locked⟩) waits
  exact ⟨y, next, inFlight_of_stuckOn opening traces stuck next waits.locked.1⟩

/-- Along the processes that wait for each other the accounts are those of transfers in flight. -/
theorem path_of_waits {o r : ℕ} {x : UUID} (opening : w.Opening)
    (traces : machine.Traces ok (machine.initial w) trace s)
    (stuck : StuckOn s o x p) (waits : Relation.ReflTransGen (WaitsFor s) p r) :
    ∃ o' y, StuckOn s o' y r ∧ Relation.ReflTransGen (InFlight s) x y := by
  induction waits with
  | refl => exact ⟨o, x, stuck, .refl⟩
  | tail _ last ih =>
    obtain ⟨o', y, stuck', path⟩ := ih
    obtain ⟨z, next, flies⟩ := stuckOn_of_stuckOn opening traces stuck' last
    exact ⟨_, z, next, path.tail flies⟩

theorem waits_acyclic (opening : w.Opening) (runs : machine.Runs InOrder (machine.initial w) s) :
    Acyclic (WaitsFor s) := by
  intro p circle
  obtain ⟨trace, traces⟩ := Machine.Runs.traces runs
  obtain ⟨n, _, waited⟩ := Relation.TransGen.tail'_iff.1 circle
  obtain ⟨m, waits, back⟩ := Relation.TransGen.head'_iff.1 circle
  obtain ⟨x, stuck⟩ := stuckOn_of_waits opening traces waited.locked.2 waits
  obtain ⟨o, y, stuck', path⟩ := path_of_waits opening traces stuck back
  obtain ⟨z, again, flies⟩ := stuckOn_of_stuckOn opening traces stuck' waits
  obtain rfl := again.unique stuck
  exact acyclic_inFlight runs z (Relation.TransGen.tail' path flies)

def Ascending (_ : State machine) (a : Action machine) : Prop :=
  ∀ p message source destination, a = .start p message → Transfers message source destination →
    source < destination

theorem lt_of_path {x y : UUID} (up : ∀ x y, InFlight s x y → x < y)
    (path : Relation.TransGen (InFlight s) x y) : x < y := by
  induction path with
  | single first => exact up _ _ first
  | tail _ last ih => exact ih.trans (up _ _ last)

theorem inOrder_of_ascending (runs : machine.Runs Ascending (machine.initial w) s) :
    machine.Runs InOrder (machine.initial w) s ∧ ∀ x y, InFlight s x y → x < y := by
  induction runs with
  | refl =>
    refine ⟨.refl, fun x y flies => ?_⟩
    obtain ⟨p, proc, found, _⟩ := flies
    cases found
  | tail _ stepped ih =>
    obtain ⟨a, ascending, stepped⟩ := stepped
    obtain ⟨runs, up⟩ := ih
    constructor
    · refine runs.tail ⟨a, fun p message source destination same transfers path => ?_, stepped⟩
      have less := ascending p message source destination same transfers
      have above : destination ≤ source := by
        rcases Relation.reflTransGen_iff_eq_or_transGen.1 path with rfl | path
        · exact le_rfl
        · exact (lt_of_path up path).le
      exact absurd less (not_lt.2 above)
    · intro x y flies
      rcases inFlight_of_step stepped flies with before | ⟨p, message, same, transfers⟩
      · exact up x y before
      · exact ascending p message x y same transfers

def holdsUp (q p : ℕ) (s : State machine) : Bool :=
  match nextStmt p s with
  | some (.upsert x delta _) =>
    q ≠ p && (World.projections s.world).locks x = some q && (Balance.ofNumber delta).isSome
  | _ => false

theorem waitsFor_of_holdsUp (held : holdsUp q p s) : WaitsFor s p q := by
  unfold holdsUp at held
  split at held
  · rename_i x delta updatedAt next
    simp only [Bool.and_eq_true, decide_eq_true_eq] at held
    obtain ⟨⟨other, locked⟩, stored⟩ := held
    obtain ⟨excluded, stored⟩ := Option.isSome_iff_exists.1 stored
    refine ⟨_, next, fun choice => ?_, other, locked⟩
    have taken : ¬(World.projections s.world).Free p x := fun free => other (free q locked)
    simp only [exec, stored, if_neg taken]
  · cases held

/-! Transfers for the examples. -/

def thirty : Decimal := ⟨false, 3000, -2⟩

def transferContent (eventId source destination : UUID) : Json :=
  .obj [("event_id", .str eventId.str), ("event_type", .str "TRANSFER_POSTED"),
    ("payload", .obj [("source_account_id", .str source.str), ("destination_account_id", .str destination.str),
      ("amount", .str thirty.str)])]

def transferMessage (eventId source destination : UUID) : Message :=
  ⟨"ledger-events", 0, 0, transferContent eventId source destination⟩

def transfer (p : ℕ) (eventId source destination : UUID) : Action machine :=
  .start p (transferMessage eventId source destination)

theorem eventIdOf_transferContent (eventId source destination : UUID) :
    eventIdOf (transferContent eventId source destination) = .ok eventId := by
  simp [eventIdOf, transferContent, Json.uuid_str, bind, Except.bind]

theorem deltas_transferContent (eventId source destination : UUID) :
    deltas (transferContent eventId source destination) =
    .ok [(source, .finite ⟨true, 3000, -2⟩), (destination, .finite thirty)] := by
  have negation : thirty.neg = some ⟨true, 3000, -2⟩ := by decide +kernel
  simp [deltas, transferContent, Json.Is, Json.uuid_str, Json.decimal_str, negate, negation, bind, Except.bind]

theorem transfers_transferMessage {eventId a b x y : UUID} (transfers : Transfers (transferMessage eventId a b) x y) :
    x = a ∧ y = b := by
  obtain ⟨_, changes, decoded, accounts⟩ := transfers
  cases (deltas_transferContent eventId a b).symm.trans decoded
  simp only [List.map_cons, List.map_nil, List.cons.injEq, and_true] at accounts
  exact ⟨accounts.1.symm, accounts.2.symm⟩

/-- Two transfers between the same accounts, one of which waits for the other. -/
theorem waits_acyclic_sample : ∃ s : State machine, WaitsFor s 1 0 ∧ Acyclic (WaitsFor s) := by
  have executed : (machine.run (fun _ _ => true) (machine.initial emptyTables)
      (transfer 0 5 1 2 :: transfer 1 6 1 2 :: steps [0, 0, 0, 0, 1, 1, 1])).map (holdsUp 0 1) = some true := by
    decide +kernel
  obtain ⟨s, reached, held⟩ := Option.map_eq_some_iff.1 executed
  have runs : machine.Runs Ascending (machine.initial emptyTables) s := by
    apply Machine.Runs.of_actions _ reached
    simp only [List.forall_mem_cons]
    have up : ∀ p eventId (s : State machine), Ascending s (transfer p eventId 1 2) := by
      intro p eventId s q message source destination same transfers
      cases same
      obtain ⟨rfl, rfl⟩ := transfers_transferMessage transfers
      decide
    refine ⟨up 0 5, up 1 6, fun a member s p message source destination same => ?_⟩
    obtain ⟨q, _, rfl⟩ := List.mem_map.1 member
    cases same
  exact ⟨s, waitsFor_of_holdsUp held, waits_acyclic emptyTables_opening (inOrder_of_ascending runs).1⟩

def handedOne : State machine :=
  ⟨emptyTables, Function.update (fun _ => none) 0 (some (machine.spawn (transferMessage 5 1 2) emptyTables))⟩

def handedBoth : State machine :=
  ⟨emptyTables, Function.update handedOne.procs 1 (some (machine.spawn (transferMessage 6 2 1) emptyTables))⟩

theorem distinct_handedOne : Distinct handedOne (transfer 1 6 2 1) := by
  intro p message same q proc found
  cases same
  have found : Function.update (fun _ => none) 0 (some (machine.spawn (transferMessage 5 1 2) emptyTables))
      q = some proc := found
  rcases Machine.found_update found with ⟨_, rfl⟩ | ⟨_, absurd⟩
  · intro equal
    cases (eventIdOf_transferContent 5 1 2).symm.trans (equal.trans (eventIdOf_transferContent 6 2 1))
  · cases absurd

/-- Each of two opposite transfers has updated its source. -/
theorem not_waits_acyclic : ¬DeadlockFree Distinct := by
  intro free
  have executed : (machine.run (fun _ _ => true) handedBoth (steps [0, 0, 0, 0, 1, 1, 1, 1, 0, 1])).map
      (fun s => (holdsUp 1 0 s, holdsUp 0 1 s)) = some (true, true) := by
    decide +kernel
  obtain ⟨s, reached, held⟩ := Option.map_eq_some_iff.1 executed
  simp only [Prod.mk.injEq] at held
  have later : machine.Runs Distinct handedBoth s := by
    apply Machine.Runs.of_actions _ reached
    intro a member s p message same
    obtain ⟨q, _, rfl⟩ := List.mem_map.1 member
    cases same
  have start : Distinct (machine.initial emptyTables) (transfer 0 5 1 2) := by
    intro p message same q proc found
    cases found
  have first : machine.step (machine.initial emptyTables) (transfer 0 5 1 2) = some handedOne := rfl
  have second : machine.step handedOne (transfer 1 6 2 1) = some handedBoth := rfl
  have runs : machine.Runs Distinct (machine.initial emptyTables) s :=
    .head ⟨_, start, first⟩ (.head ⟨_, distinct_handedOne, second⟩ later)
  exact free emptyTables_opening runs 0 (.tail (.single (waitsFor_of_holdsUp held.1)) (waitsFor_of_holdsUp held.2))

end LedgerFlow.Consumers
