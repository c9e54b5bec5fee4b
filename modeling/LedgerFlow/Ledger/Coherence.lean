import LedgerFlow.Ledger.Aftermath
import LedgerFlow.Ledger.Cache
import LedgerFlow.Ledger.Solvency

/-! One call after the other: `get_balance` returns the committed balance, also that of the system account, as
long as no cached balance of the system account outlives a deposit or a withdrawal. -/

namespace LedgerFlow.Ledger
open Accounts Outbox Concurrency

/-- The last balance that a call has read, and the key under which it is cached. -/
def remember (φ : Option (String × Decimal)) : (s : Stmt) → s.Result → Option (String × Decimal)
  | .redisGet key, .ok (some text) =>
    match Decimal.ofStr text with
    | some (.finite d) => some (key, d)
    | _ => φ
  | .sumEntries x, total => some (balanceCacheKey x, total)
  | .commit, _ => none
  | _, _ => φ

def memory (env : Deployment) : Protocol (machine env) (Option (String × Decimal)) where
  start := none
  after := remember
  allowed _ _ _ := True

def Recites (request : Request) (φ : Option (String × Decimal)) (value : Value) : Prop :=
  ∀ x d, request = .getBalance x → value = .balance d → φ = some (balanceCacheKey x, d)

/-- As far as a call has read the balance of `x`, it is the committed one. -/
def Reads (x : UUID) (φ : Option (String × Decimal)) (w : World) : Prop :=
  ∀ d, φ = some (balanceCacheKey x, d) → d.toRat = w.db.balance x / 100

variable {env : Deployment} {w w' : World} {s t : State (machine env)} {p q : ℕ} {request : Request} {x : UUID}
  {φ : Option (String × Decimal)} {a : Action (machine env)}

theorem recites_computeBalance (x : UUID) (φ : Option (String × Decimal)) : (memory env).Follows (.getBalance x)
    (Recites (.getBalance x)) (fun _ _ => True) φ (computeBalance x >>= fun balance => .ret (.balance balance)) := by
  refine ⟨trivial, fun rows _ => ?_⟩
  rcases rows with _ | ⟨account, _ | ⟨_, _⟩⟩
  · trivial
  · refine ⟨trivial, fun total _ => ?_⟩
    simp only [decimalOf_eq]
    refine ⟨trivial, fun result _ => ?_⟩
    have recited : Recites (.getBalance x) (some (balanceCacheKey x, total)) (.balance total) := by
      rintro y d asked value
      cases asked
      cases value
      rfl
    cases result <;> exact recited
  · trivial

theorem recites_getBalance (x : UUID) : (memory env).Follows (.getBalance x) (Recites (.getBalance x))
    (fun _ _ => True) none (body env (.getBalance x)) := by
  refine ⟨trivial, fun result _ => ?_⟩
  rcases result with error | _ | value
  · exact recites_computeBalance x _
  · exact recites_computeBalance x _
  · rcases read : Decimal.ofStr value with _ | (d | negative | _) <;> simp only [read]
    · exact recites_computeBalance x _
    · rintro y d' asked same
      cases asked
      cases same
      simp [memory, remember, read]
    · exact recites_computeBalance x _
    · exact recites_computeBalance x _

theorem recites_body (request : Request) :
    (memory env).Follows request (Recites request) (fun _ _ => True) none (body env request) := by
  cases request with
  | getBalance x => exact recites_getBalance x
  | _ =>
    exact Protocol.Follows.free (fun _ _ => trivial) (fun _ _ _ _ asked => by cases asked) (fun _ _ => trivial) _ _

theorem Reads.own {ψ : Progress} {stmt : Stmt} {choice : Choice} {result : stmt.Result} (reads : Reads x φ w)
    (tracks : ψ.Tracks env p w) (allowed : ψ.Allowed request stmt)
    (cached : ∀ text, stmt = .redisGet (balanceCacheKey x) → w.redis (balanceCacheKey x) = some text →
      w.db.Shows x text)
    (executed : exec env p stmt choice w = some (result, w')) : Reads x (remember φ stmt result) w' := by
  cases stmt with
  | redisGet key =>
    have db : w'.db = w.db := (exec_frame executed).1 nofun
    have kept : Reads x φ w' := by rwa [Reads, db]
    cases choice with
    | redisDown =>
      cases executed
      exact kept
    | proceed | uuid =>
      cases executed
      cases hit : w.redis key with
      | none => simpa [remember, hit] using kept
      | some text =>
        rcases read : Decimal.ofStr text with _ | (d | negative | _) <;> simp only [remember, read]
        · exact kept
        · intro d' same
          cases same
          obtain ⟨d', read', balance⟩ := cached text rfl hit
          cases read.symm.trans read'
          exact balance
        · exact kept
        · exact kept
  | sumEntries y =>
    cases executed
    intro d same
    simp only [remember, Option.some.injEq, Prod.mk.injEq] at same
    obtain ⟨key, rfl⟩ := same
    rw [balanceCacheKey_injective key, tracks.visible allowed, Tables.total_toRat]
  | commit => exact nofun
  | _ =>
    have db : w'.db = w.db := (exec_frame executed).1 nofun
    have kept : Reads x φ w' := by rwa [Reads, db]
    exact kept

structure OneAtATime (s : State (machine env)) (a : Action (machine env)) : Prop where
  unfailing : ∀ p, a ≠ .abort p
  completed : ∀ p request, a = .start p request → ∀ q proc, s.procs q = some proc → proc.rest.Finished

structure InSequence (s : State (machine env)) (a : Action (machine env)) : Prop extends Answering a where
  completed : ∀ p request, a = .start p request → ∀ q proc, s.procs q = some proc → proc.rest.Finished

theorem InSequence.oneAtATime (sequence : InSequence s a) : OneAtATime s a :=
  ⟨sequence.unfailing, sequence.completed⟩

/-- When a deposit or a withdrawal is to commit, no balance of a system account is cached
but that of the account it names. -/
structure CashUncached (s : State (machine env)) (a : Action (machine env)) : Prop extends InSequence s a where
  uncached : ∀ p choice request x y, a = .step p choice → nextStmt p s = some .commit →
    requestOf p s = some request →
    request.accounts = [y] → s.world.db.IsSystemCash x → x ≠ y → s.world.redis (balanceCacheKey x) = none

def Lone (s : State (machine env)) : Prop := ∀ p q proc proc', s.procs p = some proc → s.procs q = some proc' →
  ¬proc.rest.Finished → ¬proc'.rest.Finished → p = q

/-- A call in progress has committed, or it has executed all its statements on the present tables. -/
def Steady (s : State (machine env)) : Prop := ∀ p proc, s.procs p = some proc → ¬proc.rest.Finished →
  (∀ executed ∈ proc.past, (executed.2 : World).db = s.world.db) ∨ proc.rest.Never Exchanges

/-- A call that has committed has its deletion of the cached balance of `x` ahead of it. -/
def Clearing (x : UUID) (s : State (machine env)) : Prop :=
  ∃ p proc, s.procs p = some proc ∧ proc.rest.Never Exchanges ∧ Deletes x proc.rest

def Guarded (x : UUID) (s : State (machine env)) : Prop :=
  ∀ text, s.world.redis (balanceCacheKey x) = some text → s.world.db.Shows x text ∨ Clearing x s

/-- Where a deletion fails, a balance of `x` that the call was still to delete is not
cached or is the committed one. -/
def LeavesCurrent (x : UUID) (s : State (machine env)) (a : Action (machine env)) : Prop :=
  ∀ p proc key text, a = .step p .redisDown → s.procs p = some proc → nextStmt p s = some (.redisDelete key) →
    Deletes x proc.rest → s.world.redis (balanceCacheKey x) = some text → s.world.db.Shows x text

def LeavesUncached (x : UUID) (s : State (machine env)) (a : Action (machine env)) : Prop :=
  ∀ p choice request y, a = .step p choice → nextStmt p s = some .commit → requestOf p s = some request →
    request.accounts = [y] → s.world.db.IsSystemCash x → x ≠ y → s.world.redis (balanceCacheKey x) = none

theorem Lone.step (lone : Lone s) (sequence : OneAtATime s a)
    (stepped : (machine env).step s a = some t) : Lone t := by
  intro p q proc proc' found found' running running'
  rcases Machine.unfinished_of_step stepped found running with ⟨before, old, open_⟩ | ⟨request, rfl⟩ <;>
    rcases Machine.unfinished_of_step stepped found' running' with ⟨before', old', open'⟩ | ⟨request', same⟩
  · exact lone p q before before' old old' open_ open'
  · exact absurd (sequence.completed q request' same p before old) open_
  · exact absurd (sequence.completed p request rfl q before' old') open'
  · cases same
    rfl

theorem Lone.still (lone : Lone s) (sequence : OneAtATime s a) (stepped : (machine env).step s a = some t)
    {proc : Proc (machine env)} (found : s.procs p = some proc) (running : ¬proc.rest.Finished)
    (other : ∀ choice, a ≠ .step p choice) : t.world.db = s.world.db := by
  rcases Machine.step_cases stepped with ⟨q, request, rfl, fresh, rfl⟩ |
    ⟨q, choice, before, stmt, next, result, w', rfl, found', rest, executed, rfl⟩ |
    ⟨q, before, rfl, found', unfinished, rfl⟩ | ⟨q, before, rfl, found', finished, rfl⟩ |
      ⟨e, w', rfl, ticked, rfl⟩
  · rfl
  · have same : p = q := lone p q proc before found found' running (rest ▸ id)
    exact absurd (by rw [same]) (other choice)
  · rfl
  · rfl
  · cases ticked
    rfl

theorem Steady.step {ok : State (machine env) → Action (machine env) → Prop} (steady : Steady s) (lone : Lone s)
    (sequence : OneAtATime s a) (runs : (machine env).Runs ok ((machine env).initial w) s)
    (stepped : (machine env).step s a = some t) : Steady t := by
  intro r proc found running
  by_cases mine : ∃ choice, a = .step r choice
  · obtain ⟨choice, rfl⟩ := mine
    obtain ⟨before, stmt, next, result, w', found', rest, executed, rfl⟩ := Machine.step_own stepped
    obtain ⟨_, rfl⟩ := (Machine.found_update found).resolve_right fun ⟨different, _⟩ => different rfl
    by_cases commit : stmt = .commit
    · subst commit
      exact .inr (aftermath_of_runs runs found' rest).quiet
    · have db : w'.db = s.world.db := (exec_frame executed).1 commit
      refine (steady r before found' (by rw [rest]; exact id)).imp (fun past executed member => ?_) fun never => ?_
      · rw [show World.db _ = s.world.db from db]
        rcases List.mem_cons.1 member with rfl | earlier
        · rfl
        · exact past executed earlier
      · rw [rest] at never
        exact never.2 result
  · have other : ∀ choice, a ≠ .step r choice := fun choice same => mine ⟨choice, same⟩
    rcases Machine.step_cases stepped with ⟨q, request, rfl, fresh, rfl⟩ |
      ⟨q, choice, before, stmt, next, result, w', rfl, found', rest, executed, rfl⟩ |
      ⟨q, before, rfl, found', unfinished, rfl⟩ | ⟨q, before, rfl, found', finished, rfl⟩ |
        ⟨e, w', rfl, ticked, rfl⟩
    · rcases Machine.found_update found with ⟨rfl, rfl⟩ | ⟨_, old⟩
      · exact .inl fun executed member => by cases member
      · exact steady r proc old running
    · rcases Machine.found_update found with ⟨rfl, rfl⟩ | ⟨different, old⟩
      · exact absurd rfl (other choice)
      · exact absurd (lone r q proc before old found' running (rest ▸ id)) different
    · exact absurd rfl (sequence.unfailing q)
    · exact steady r proc found running
    · cases ticked
      exact steady r proc found running

/-- One executed statement deletes the cached balance, leaves the deletion ahead, or is a deletion that fails. -/
theorem Clearing.advance {proc : Proc (machine env)} {stmt : Stmt} {next : stmt.Result → Code Value}
    {choice : Choice}
    {result : stmt.Result} (clearing : Clearing x s) (found : s.procs p = some proc)
    (rest : proc.rest = .call stmt next)
    (executed : exec env p stmt choice s.world = some (result, w')) {past : List (Stmt × World)} :
    w'.redis (balanceCacheKey x) = none ∨
    Clearing x (⟨w', Function.update s.procs p (some { proc with past := past, rest := next result })⟩ :
      State (machine env)) ∨
    choice = .redisDown ∧ (∃ key, stmt = .redisDelete key) ∧ Deletes x proc.rest := by
  obtain ⟨q, writer, found', never, deletes⟩ := clearing
  by_cases same : q = p
  · subst same
    cases found.symm.trans found'
    by_cases down : choice = .redisDown ∧ ∃ key, stmt = .redisDelete key
    · exact .inr (.inr ⟨down.1, down.2, deletes⟩)
    · rw [rest] at never deletes
      have answer : answered stmt result := by
        cases stmt with
        | redisGet | redisSet => exact absurd trivial never.1
        | redisDelete key => exact answered_of_exec (fun failed => down ⟨failed, key, rfl⟩) executed
        | _ => trivial
      rcases deletes with now | later
      · subst now
        exact .inl (exec_redisDelete (fun failed => down ⟨failed, _, rfl⟩) executed)
      · exact .inr (.inl ⟨q, _, Function.update_self .., never.2 result, later result answer⟩)
  · exact .inr (.inl ⟨q, writer, by simpa [Function.update_of_ne same] using found', never, deletes⟩)

/-- A posting is on accounts that the call names, or it names one of them and the other is a system account. -/
theorem PostedBy.touches {db : Tables} {P : Posting} (posted : PostedBy env db request P)
    (party : x = P.payer ∨ x = P.payee) :
    x ∈ request.accounts ∨ db.IsSystemCash x ∧ ∃ y, request.accounts = [y] := by
  cases posted with
  | deposit account system _ _ _ _ _ _ found _ cash isCash =>
    rcases party with rfl | rfl
    · exact .inr ⟨⟨system, cash, rfl, isCash⟩, _, rfl⟩
    · exact .inl List.mem_cons_self
  | withdrawal account system _ _ _ _ _ _ _ found _ cash isCash =>
    rcases party with rfl | rfl
    · exact .inl List.mem_cons_self
    · exact .inr ⟨⟨system, cash, rfl, isCash⟩, _, rfl⟩
  | transfer source destination =>
    rcases party with rfl | rfl
    · exact .inl List.mem_cons_self
    · exact .inl (List.mem_cons_of_mem _ List.mem_cons_self)

theorem Commits.amounts_cases {db rows : Tables} (commits : Commits env db request rows) (x : UUID) :
    rows.amounts x = [] ∨ x ∈ request.accounts ∨ db.IsSystemCash x ∧ ∃ y, request.accounts = [y] := by
  cases commits with
  | opens => exact .inl rfl
  | posts P posted =>
    by_cases party : x = P.payer ∨ x = P.payee
    · exact .inr (posted.touches party)
    · rw [not_or] at party
      exact .inl (by simp [Tables.amounts, Posting.rows, Ne.symm party.1, Ne.symm party.2])

section Runs
variable {ok : State (machine env) → Action (machine env) → Prop} {trace : List (Executed language)}

theorem Guarded.step (guarded : Guarded x s) (steady : Steady s) (opening : w.Opening)
    (traces : (machine env).Traces ok ((machine env).initial w) trace s) (sequence : OneAtATime s a)
    (current : LeavesCurrent x s a) (uncached : LeavesUncached x s a) (stepped : (machine env).step s a = some t) :
    Guarded x t := by
  have commits := commit_cases opening traces stepped
  rcases Machine.step_cases stepped with ⟨q, request, rfl, fresh, rfl⟩ |
    ⟨q, choice, proc, stmt, next, result, w', rfl, found, rest, executed, rfl⟩ |
    ⟨q, proc, rfl, found, running, rfl⟩ | ⟨q, proc, rfl, found, finished, rfl⟩ | ⟨e, w', rfl, ticked, rfl⟩
  · intro text hit
    refine (guarded text hit).imp id fun ⟨r, writer, found, never, deletes⟩ => ⟨r, writer, ?_, never, deletes⟩
    have different : r ≠ q := fun same => by simp [same, fresh] at found
    simpa [Function.update_of_ne different] using found
  · intro text hit
    -- the cached text was there before, and nothing was committed on the account
    have kept : Tables.balance w'.db x = s.world.db.balance x →
        World.redis s.world (balanceCacheKey x) = some text →
        Tables.Shows w'.db x text ∨ Clearing x (⟨w', Function.update s.procs q
          (some { proc with past := (stmt, s.world) :: proc.past, rest := next result })⟩ : State
            (machine env)) := by
      intro balance before
      have shows : s.world.db.Shows x text → Tables.Shows w'.db x text :=
        fun ⟨d, read, sum⟩ => ⟨d, read, by rw [sum, balance]⟩
      rcases guarded text before with shown | clearing
      · exact .inl (shows shown)
      · rcases clearing.advance found rest executed with gone | ahead | ⟨down, ⟨key, delete⟩, deletes⟩
        · cases gone.symm.trans hit
        · exact .inr ahead
        · subst down delete
          exact .inl (shows (current q proc key text rfl found (nextStmt_eq found rest) deletes before))
    have redis := exec_redis executed
    by_cases commit : stmt = .commit
    · subst commit
      have before : s.world.redis (balanceCacheKey x) = some text := by
        rcases redis with same | ⟨_, _, other, _⟩ | ⟨_, other, _⟩
        · exact same ▸ hit
        · cases other
        · cases other
      rcases commits with same | ⟨p', choice', proc', next', equal, found', _, commits, grown⟩
      · exact kept (by rw [show World.db w' = s.world.db from same]) before
      · cases equal
        cases found.symm.trans found'
        have aftermath := aftermath_of_runs traces.runs found rest
        rcases commits.amounts_cases x with untouched | named | ⟨cash, y, only⟩
        · apply kept _ before
          rw [show World.db w' = s.world.db ++ _ from grown, Tables.balance_append]
          simp [Tables.balance, untouched]
        · exact .inr ⟨q, _, Function.update_self .., aftermath.quiet, aftermath.deletes x named⟩
        · by_cases named : x = y
          · exact .inr ⟨q, _, Function.update_self .., aftermath.quiet,
              aftermath.deletes x (by simp [only, named])⟩
          · have none := uncached q choice proc.request y rfl (nextStmt_eq found rest)
              (requestOf_eq found) only cash named
            cases none.symm.trans before
    · have db : World.db w' = s.world.db := (exec_frame executed).1 commit
      have kept := kept (by rw [db])
      rcases redis with same | ⟨key, written, rfl, rfl⟩ | ⟨key, rfl, rfl⟩
      · exact kept (same ▸ hit)
      · by_cases mine : key = balanceCacheKey x
        · subst mine
          have covered := covers_all opening traces.runs
          obtain ⟨y, w₁, equal, sum, summed⟩ :=
            ((sound env _).guar_of_step covered found rest executed).1.caches _ _ next rest
          cases balanceCacheKey_injective equal
          have stored : written = text := by simpa using hit
          have past : (w₁ : World).db = s.world.db := by
            rcases steady q proc found (by rw [rest]; exact id) with past | never
            · exact past _ summed
            · rw [rest] at never
              exact absurd trivial never.1
          exact .inl (stored ▸ sum ▸ Tables.shows_of_amounts (by rw [past]))
        · exact kept (by simpa [Function.update_of_ne (Ne.symm mine)] using hit)
      · by_cases mine : balanceCacheKey x = key
        · subst mine
          simp at hit
        · exact kept (by simpa [Function.update_of_ne mine] using hit)
  · exact absurd rfl (sequence.unfailing q)
  · exact guarded
  · cases ticked
    exact guarded

theorem steady_of_runs (sequence : ∀ s a, ok s a → OneAtATime s a)
    (runs : (machine env).Runs ok ((machine env).initial w) s) : Lone s ∧ Steady s := by
  induction runs with
  | refl =>
    constructor
    · intro p q proc proc' found
      cases found
    · intro p proc found
      cases found
  | tail runs stepped ih =>
    obtain ⟨a, allowed, stepped⟩ := stepped
    obtain ⟨lone, steady⟩ := ih
    have sequence := sequence _ a allowed
    exact ⟨lone.step sequence stepped, steady.step lone sequence runs stepped⟩

theorem Guarded.shows (guarded : Guarded x s) (lone : Lone s) {proc : Proc (machine env)} {text : String}
    {next : (Stmt.redisGet (balanceCacheKey x)).Result → Code Value} (found : s.procs p = some proc)
    (rest : proc.rest = .call (.redisGet (balanceCacheKey x)) next)
    (hit : s.world.redis (balanceCacheKey x) = some text) : s.world.db.Shows x text := by
  refine (guarded text hit).resolve_right fun ⟨q, writer, found', never, deletes⟩ => ?_
  have running : ¬writer.rest.Finished := by
    intro finished
    cases left : writer.rest <;> simp_all [Deletes, Prog.Inevitably, Prog.Finished]
  obtain rfl := lone p q proc writer found found' (by rw [rest]; exact id) running
  cases found.symm.trans found'
  rw [rest] at never
  exact never.1 trivial

theorem exec_grows {stmt : Stmt} {choice : Choice} {result : stmt.Result}
    (executed : exec env p stmt choice w = some (result, w')) : ∃ rows, w'.db = w.db ++ rows := by
  by_cases commit : stmt = .commit
  · subst commit
    cases executed
    exact ⟨_, rfl⟩
  · exact ⟨{}, by rw [(exec_frame executed).1 commit, Tables.append_empty]⟩

/-- Where the cached balance of `x` is guarded as long as the tables are `fit`, a call
in progress reads the committed one. -/
theorem reads_of_traces {fit : Tables → Prop} (opening : w.Opening) (sequence : ∀ s a, ok s a → OneAtATime s a)
    (earlier : ∀ db rows, fit (db ++ rows) → fit db)
    (guarded : ∀ {s}, (machine env).Runs ok ((machine env).initial w) s → fit s.world.db → Guarded x s)
    (traces : (machine env).Traces ok ((machine env).initial w) trace s) (running : Protocol.Open s p) :
    fit s.world.db → Reads x ((memory env).phase p trace) s.world := by
  refine Protocol.knows_of_traces (P := memory env) (K := fun _ φ w => fit w.db → Reads x φ w)
    (fun _ _ => nofun) ?_ ?_ traces running
  · intro trace s p proc choice stmt next result w' traces _ found rest executed reads suits
    obtain ⟨rows, grown⟩ := exec_grows executed
    have suited := earlier s.world.db rows (grown ▸ suits)
    have lone := (steady_of_runs sequence traces.runs).1
    apply (reads suited).own (tracks_of_traces opening traces (Protocol.open_of_call found rest))
      (allowed_of_traces traces found rest) _ executed
    intro text same hit
    subst same
    exact (guarded traces.runs suited).shows lone found rest hit
  · intro trace s t a q traces allowed stepped other _ running reads
    cases found : s.procs q with
    | none =>
      rw [Protocol.phase_of_idle traces found]
      exact fun _ => nofun
    | some proc =>
      have lone := (steady_of_runs sequence traces.runs).1
      have db := lone.still (sequence _ _ allowed) stepped found (running proc found) other
      rw [db]
      intro suits d same
      rw [db]
      exact reads suits d same

theorem reads_committed (fit : Tables → Prop) {d : Decimal} (opening : w.Opening)
    (sequence : ∀ s a, ok s a → OneAtATime s a) (earlier : ∀ db rows, fit (db ++ rows) → fit db)
    (guarded : ∀ {s}, (machine env).Runs ok ((machine env).initial w) s → fit s.world.db → Guarded x s)
    (runs : (machine env).Runs ok ((machine env).initial w) s) (allowed : ok s a)
    (stepped : (machine env).step s a = some t)
    (suits : fit t.world.db) (asked : requestOf p t = some (.getBalance x)) (unanswered : answer p s = none)
    (returned : answer p t = some (.ok (.balance d))) : d.toRat = t.world.db.balance x / 100 := by
  obtain ⟨trace, traces⟩ := Machine.Runs.traces runs
  have lone := (steady_of_runs sequence runs).1
  cases found : t.procs p with
  | none => simp [answer, found] at returned
  | some proc =>
  have rest := answer_eq_ok found returned
  have request : proc.request = .getBalance x := Option.some.inj ((requestOf_eq found).symm.trans asked)
  have recites := Protocol.follows_of_traces (Φ := fun _ => True) (fun _ _ _ _ => trivial)
    (fun request _ => recites_body request) (fun _ => trivial) (traces.tail allowed stepped) found
  rw [rest] at recites
  have read := recites x d request rfl
  have before : ∀ proc, s.procs p = some proc → ¬proc.rest.Finished := fun proc found =>
    running_of_answer (by rw [unanswered]; rfl) found
  rcases Machine.step_cases stepped with ⟨q, asked', rfl, fresh, rfl⟩ |
    ⟨q, choice, reader, stmt, next, result, w', rfl, found', call, executed, rfl⟩ |
    ⟨q, reader, rfl, found', running, rfl⟩ | ⟨q, reader, rfl, found', finished, rfl⟩ |
      ⟨e, w', rfl, ticked, rfl⟩
  · rcases Machine.found_update found with ⟨rfl, rfl⟩ | ⟨_, old⟩
    · cases (show asked' = .getBalance x from request)
      cases rest
    · exact absurd (rest ▸ trivial) (before proc old)
  · rcases Machine.found_update found with ⟨rfl, rfl⟩ | ⟨_, old⟩
    · rw [Protocol.phase_of_executed (Machine.executed_step found' call executed), if_pos rfl] at read
      have running := Protocol.open_of_call found' call
      obtain ⟨rows, grown⟩ := exec_grows executed
      have suited := earlier s.world.db rows (grown ▸ suits)
      have reads := reads_of_traces opening sequence earlier guarded traces running suited
      apply reads.own (tracks_of_traces opening traces running) (allowed_of_traces traces found' call)
        _ executed d read
      intro text same hit
      subst same
      exact (guarded runs suited).shows lone found' call hit
    · exact absurd (rest ▸ trivial) (before proc old)
  · exact absurd rfl ((sequence _ _ allowed).unfailing q)
  · exact absurd (rest ▸ trivial) (before proc found)
  · exact absurd (rest ▸ trivial) (before proc found)

end Runs

/-- When a call of `get_balance` returns, it returns the sum of the committed entries on the account. -/
def CoherentInSequence (env : Deployment) (ok : State (machine env) → Action (machine env) → Prop) : Prop :=
  ∀ {w : World} {s t : State (machine env)} {a : Action (machine env)} {p : ℕ} {x : UUID} {d : Decimal},
    w.Opening → (∀ x text, w.redis (balanceCacheKey x) = some text → w.db.Shows x text) →
    (machine env).Runs ok ((machine env).initial w) s → ok s a → (machine env).step s a = some t →
    requestOf p t = some (.getBalance x) → answer p s = none → answer p t = some (.ok (.balance d)) →
    d.toRat = t.world.db.balance x / 100

theorem CashUncached.oneAtATime (s : State (machine env)) (a : Action (machine env)) (allowed : CashUncached s a) :
    OneAtATime s a :=
  allowed.toInSequence.oneAtATime

theorem guarded_of_runs (opening : w.Opening)
    (start : ∀ text, w.redis (balanceCacheKey x) = some text → w.db.Shows x text)
    (runs : (machine env).Runs CashUncached ((machine env).initial w) s) : Guarded x s := by
  induction runs with
  | refl => exact fun text hit => .inl (start text hit)
  | tail runs stepped ih =>
    obtain ⟨a, allowed, stepped⟩ := stepped
    obtain ⟨trace, traces⟩ := Machine.Runs.traces runs
    have steady := (steady_of_runs CashUncached.oneAtATime runs).2
    apply ih.step steady opening traces allowed.oneAtATime _ _ stepped
    · intro p proc key text same
      exact absurd same (allowed.answering p)
    · intro p choice request y same
      exact allowed.uncached p choice request x y same

theorem coherent_in_sequence (env : Deployment) : CoherentInSequence env CashUncached := by
  intro w s t a p x d opening start runs allowed stepped asked unanswered returned
  exact reads_committed (fun _ => True) opening CashUncached.oneAtATime (fun _ _ _ => trivial)
    (fun runs _ => guarded_of_runs opening (start x) runs) runs allowed stepped trivial asked unanswered returned

def query (p : ℕ) (x : UUID) : List (Action (machine sample)) :=
  [.start p (.getBalance x), .step p .proceed, .step p .proceed, .step p .proceed]

/-- The processes 0, 1 and 2 run one after the other, Redis answers, and with `strict` the balance of the
system account is not cached when a process commits. -/
def oneByOne (strict : Bool) : State (machine sample) → Action (machine sample) → Bool
  | s, .start _ _ => (List.range 3).all fun q => (s.procs q).all fun proc => decide proc.rest.Finished
  | _, .step _ .redisDown => false
  | s, .step p _ =>
    match nextStmt p s with
    | some .commit => !strict || (s.world : World).db.accounts.all fun account =>
      !account.isSystemCash || ((s.world : World).redis (balanceCacheKey account.accountId)).isNone
    | _ => true
  | _, .abort _ => false
  | _, _ => true

theorem inSequence_of_oneByOne {strict : Bool} (s : State (machine sample)) (a : Action (machine sample))
    (unused : ∀ q, 3 ≤ q → s.procs q = none) (allowed : oneByOne strict s a) : InSequence s a where
  unfailing p same := by
    subst same
    cases allowed
  answering p same := by
    subst same
    cases allowed
  completed p request same q proc found := by
    subst same
    have early : q < 3 := by
      by_contra late
      cases (unused q (by omega)).symm.trans found
    simp only [oneByOne, List.all_eq_true, List.mem_range] at allowed
    have finished := allowed q early
    rw [found] at finished
    exact of_decide_eq_true finished

theorem cashUncached_of_oneByOne (s : State (machine sample)) (a : Action (machine sample))
    (unused : ∀ q, 3 ≤ q → s.procs q = none) (allowed : oneByOne true s a) : CashUncached s a where
  toInSequence := inSequence_of_oneByOne s a unused allowed
  uncached p choice request x y same next _ _ cash _ := by
    subst same
    obtain ⟨account, member, rfl, isCash⟩ := cash
    cases choice with
    | redisDown => cases allowed
    | proceed | uuid =>
      simp only [oneByOne, next, Bool.not_true, Bool.false_or, List.all_eq_true, Bool.or_eq_true] at allowed
      have none := (allowed account member).resolve_left (by simp [isCash])
      simpa using none

def lastAnswer (allow : State (machine sample) → Action (machine sample) → Bool) (p : ℕ) (x : UUID)
    (s : State (machine sample)) : Option (Bool × Option Request × Option Decimal × ℤ) :=
  ((machine sample).step s (.step p .proceed)).map fun t =>
    (allow s (.step p .proceed) && (answer p s).isNone, requestOf p t, balanceOf p t, (t.world : World).db.balance x)

theorem lastAnswer_eq {allow : State (machine sample) → Action (machine sample) → Bool} {p : ℕ} {x : UUID}
    {s : State (machine sample)} {request : Request} {d : Decimal} {cents : ℤ}
    (observed : lastAnswer allow p x s = some (true, some request, some d, cents)) :
    ∃ t, (machine sample).step s (.step p .proceed) = some t ∧ allow s (.step p .proceed) ∧
    answer p s = none ∧
      requestOf p t = some request ∧ answer p t = some (.ok (.balance d)) ∧ t.world.db.balance x = cents := by
  obtain ⟨t, stepped, same⟩ := Option.map_eq_some_iff.1 observed
  simp only [Prod.mk.injEq, Bool.and_eq_true, Option.isNone_iff_eq_none] at same
  obtain ⟨⟨permitted, unanswered⟩, asked, returned, cents⟩ := same
  refine ⟨t, stepped, permitted, unanswered, asked, ?_, cents⟩
  unfold balanceOf at returned
  split at returned
  · rename_i balance answered
    cases returned
    exact answered
  · cases returned

def aroundDeposit : List (Action (machine sample)) :=
  query 0 2 ++ [.step 0 .proceed] ++ deposit 1 oneRupee ++ query 2 2

theorem coherent_in_sequence_sample : ∃ (t : State (machine sample)) (d : Decimal),
    answer 2 t = some (.ok (.balance d)) ∧ t.world.db.balance 2 = 10100 ∧
    d.toRat = t.world.db.balance 2 / 100 := by
  have executed : ((machine sample).run (oneByOne true) ((machine sample).initial bank) aroundDeposit).bind
      (lastAnswer (oneByOne true) 2 2) = some (true, some (.getBalance 2), some ⟨false, 10100, -2⟩, 10100) := by
    decide +kernel
  obtain ⟨s, reached, observed⟩ := Option.bind_eq_some_iff.1 executed
  obtain ⟨t, stepped, permitted, unanswered, asked, returned, cents⟩ := lastAnswer_eq observed
  obtain ⟨runs, unused⟩ := Machine.Runs.of_run_below (n := 3) cashUncached_of_oneByOne (fun p request member => by
    simp only [aroundDeposit, query, deposit, List.cons_append, List.nil_append, List.mem_cons, reduceCtorEq,
      List.not_mem_nil, false_or, or_false] at member
    rcases member with same | same | same <;> cases same <;> omega) (fun _ _ => rfl) reached
  have allowed : CashUncached s (.step 2 .proceed) := cashUncached_of_oneByOne s _ unused permitted
  exact ⟨t, _, returned, cents, coherent_in_sequence sample bank_opening
    (fun x text hit => by simp [bank] at hit) runs allowed stepped asked unanswered returned⟩

/-- A query of the system account's balance, a deposit, and a query again, which finds
the old balance in the cache. -/
def aroundDepositCash : List (Action (machine sample)) :=
  query 0 1 ++ [.step 0 .proceed] ++ deposit 1 oneRupee ++ [.start 2 (.getBalance 1)]

theorem not_coherent_in_sequence : ¬CoherentInSequence sample InSequence := by
  intro coherent
  have executed : ((machine sample).run (oneByOne false) ((machine sample).initial bank) aroundDepositCash).bind
      (lastAnswer (oneByOne false) 2 1) = some (true, some (.getBalance 1), some ⟨true, 10000, -2⟩, -10100) := by
    decide +kernel
  obtain ⟨s, reached, observed⟩ := Option.bind_eq_some_iff.1 executed
  obtain ⟨t, stepped, permitted, unanswered, asked, returned, cents⟩ := lastAnswer_eq observed
  obtain ⟨runs, unused⟩ := Machine.Runs.of_run_below (n := 3) inSequence_of_oneByOne (fun p request member => by
    simp only [aroundDepositCash, query, deposit, List.cons_append, List.nil_append, List.mem_cons, reduceCtorEq,
      List.not_mem_nil, false_or, or_false] at member
    rcases member with same | same | same <;> cases same <;> omega) (fun _ _ => rfl) reached
  have allowed : InSequence s (.step 2 .proceed) := inSequence_of_oneByOne s _ unused permitted
  have sum := coherent bank_opening (fun x text hit => by simp [bank] at hit) runs allowed stepped asked
      unanswered returned
  rw [cents] at sum
  norm_num [Decimal.toRat, Decimal.magnitude] at sum

end LedgerFlow.Ledger
