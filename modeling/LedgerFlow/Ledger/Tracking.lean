import LedgerFlow.Ledger.Procedure
import LedgerFlow.Ledger.Runs

/-! The progress of a call and the database: its session, its locks and the rows it has
found are what the procedure says. -/

namespace LedgerFlow.Ledger
open Accounts Outbox Concurrency

structure World.Apart (q : ℕ) (w w' : World) : Prop where
  session : w'.sessions q = w.sessions q
  rowLocks : ∀ x mode, (q, mode) ∈ w'.rowLocks x ↔ (q, mode) ∈ w.rowLocks x
  keyLocks : ∀ key, w'.keyLocks key = some q ↔ w.keyLocks key = some q

def World.Exclusive (w : World) : Prop :=
  ∀ x p q mode, (p, LockMode.forUpdate) ∈ w.rowLocks x → (q, mode) ∈ w.rowLocks x → q = p

/-- The session and the locks of `p` are those of its progress, and the rows it has found are committed. -/
structure Progress.Tracks (env : Deployment) (p : ℕ) (φ : Progress) (w : World) : Prop where
  session : w.sessions p = ⟨φ.writes, φ.saved⟩
  blank : ∀ rows, φ.saved = some rows → rows = {}
  forUpdate : ∀ x, (p, LockMode.forUpdate) ∈ w.rowLocks x ↔ x ∈ φ.locked
  keyShare : ∀ x, (p, LockMode.keyShare) ∈ w.rowLocks x ↔
    env.foreignKeyLocks ∧ ∃ entry ∈ φ.writes.entries, entry.accountId = x
  keys : ∀ key, w.keyLocks key = some p → key ∈ φ.writes.keys
  found : ∀ account ∈ φ.known ++ φ.cash, account ∈ w.db.accounts

variable {env : Deployment} {p q : ℕ} {w w' w'' : World} {φ : Progress}

namespace World.Apart

theorem refl (q : ℕ) (w : World) : Apart q w w := ⟨rfl, fun _ _ => .rfl, fun _ => .rfl⟩

theorem setSession (other : q ≠ p) (session : Session) : Apart q w (w.setSession p session) :=
  ⟨Function.update_of_ne other .., fun _ _ => .rfl, fun _ => .rfl⟩

theorem lock (other : q ≠ p) (x : UUID) (mode : LockMode) : Apart q w (w.lock p x mode) := by
  refine ⟨rfl, fun y mode' => ?_, fun _ => .rfl⟩
  simp [World.mem_rowLocks_lock, other]

theorem holdKey (other : q ≠ p) {key : String} (free : w.keyLocks key = none) : Apart q w (w.holdKey p key) := by
  refine ⟨rfl, fun _ _ => .rfl, fun key' => ?_⟩
  rw [World.keyLocks_holdKey]
  constructor
  · rintro (⟨-, mine⟩ | ⟨-, held⟩)
    · exact absurd mine.symm other
    · exact held
  · intro held
    refine .inr ⟨fun same => ?_, held⟩
    rw [same, free] at held
    cases held

theorem finish (other : q ≠ p) : Apart q w (w.finish p) := by
  refine ⟨Function.update_of_ne other .., fun x mode => ?_, fun key => ?_⟩
  · simp [World.finish, other]
  · by_cases mine : w.keyLocks key = some p
    · simp [World.finish, mine, Ne.symm other]
    · simp [World.finish, mine]

theorem rollbackToSavepoint (other : q ≠ p) : Apart q w (w.rollbackToSavepoint p) := by
  refine ⟨Function.update_of_ne other .., fun x mode => ?_, fun key => ?_⟩
  · simp [World.rollbackToSavepoint, other]
  · by_cases mine : w.keyLocks key = some p
    · simp [World.rollbackToSavepoint, mine, Ne.symm other]
    · simp [World.rollbackToSavepoint, mine]

theorem trans (first : Apart q w w') (second : Apart q w' w'') : Apart q w w'' where
  session := second.session.trans first.session
  rowLocks x mode := (second.rowLocks x mode).trans (first.rowLocks x mode)
  keyLocks key := (second.keyLocks key).trans (first.keyLocks key)

end World.Apart

/-- What a statement of session `p` can do to the sessions and the locks. -/
inductive Effect (env : Deployment) (p : ℕ) (w : World) : World → Prop where
  | frame (w' : World) (sessions : w'.sessions = w.sessions) (rowLocks : w'.rowLocks = w.rowLocks)
      (keyLocks : w'.keyLocks = w.keyLocks) : Effect env p w w'
  | session (session : Session) : Effect env p w (w.setSession p session)
  | forUpdate (x : UUID) (granted : ∀ holder ∈ w.rowLocks x, holder.1 = p) :
      Effect env p w (w.lock p x .forUpdate)
  | keyShare (session : Session) (x : UUID)
      (granted : ∀ holder ∈ w.rowLocks x, holder.1 = p ∨ holder.2 = .keyShare) :
      Effect env p w ((w.setSession p session).lock p x .keyShare)
  | key (session : Session) (key : String) (free : w.keyLocks key = none) :
      Effect env p w ((w.setSession p session).holdKey p key)
  | finish (db : Tables) : Effect env p w { w.finish p with db }
  | rollback : Effect env p w (w.rollbackToSavepoint p)

theorem effect_of_exec {stmt : Stmt} {choice : Choice} {result : stmt.Result}
    (executed : exec env p stmt choice w = some (result, w')) : Effect env p w w' := by
  cases stmt with
  | uuid4 =>
    cases choice <;> simp only [exec] at executed
    · cases executed
    · split_ifs at executed
      cases executed
      exact .frame _ rfl rfl rfl
    · cases executed
  | lockAccount x =>
    simp only [exec] at executed
    split_ifs at executed with granted
    cases executed
    exact .forUpdate x granted
  | insertAccount account =>
    simp only [exec] at executed
    split at executed <;> cases executed
    · exact .frame _ rfl rfl rfl
    · exact .session _
  | insertTransaction transaction =>
    rcases exec_insertTransaction executed with
      ⟨_, rfl, rfl⟩ | ⟨row, _, ⟨_, rfl, rfl⟩ | ⟨key, _, ⟨_, rfl, rfl⟩ | ⟨_, free, rfl, rfl⟩⟩⟩
    · exact .frame _ rfl rfl rfl
    · exact .session _
    · exact .frame _ rfl rfl rfl
    · exact .key _ _ free
  | insertEntry transactionId x amount =>
    simp only [exec] at executed
    split at executed
    · cases executed
      exact .frame _ rfl rfl rfl
    · split_ifs at executed with empty locks granted
      · cases executed
        exact .frame _ rfl rfl rfl
      · cases executed
        exact .keyShare _ x granted
      · cases executed
        exact .session _
  | insertEvent | savepoint | releaseSavepoint =>
    cases executed
    exact .session _
  | rollbackToSavepoint =>
    cases executed
    exact .rollback
  | commit =>
    cases executed
    exact .finish _
  | rollback =>
    cases executed
    exact .finish w.db
  | redisGet | redisSet | redisDelete =>
    cases choice <;> simp only [exec] at executed <;> cases executed <;> exact .frame _ rfl rfl rfl
  | _ =>
    cases executed
    exact .frame _ rfl rfl rfl

theorem Effect.apart (effect : Effect env p w w') (other : q ≠ p) : World.Apart q w w' := by
  cases effect with
  | frame _ sessions rowLocks keyLocks =>
    exact ⟨by rw [sessions], fun _ _ => by rw [rowLocks], fun _ => by rw [keyLocks]⟩
  | session session => exact .setSession other session
  | forUpdate x => exact .lock other x .forUpdate
  | keyShare session x => exact (World.Apart.setSession other session).trans (.lock other x .keyShare)
  | key session key free => exact (World.Apart.setSession other session).trans (.holdKey other free)
  | finish db =>
    exact ⟨(World.Apart.finish other).session, (World.Apart.finish other).rowLocks,
    (World.Apart.finish other).keyLocks⟩
  | rollback => exact .rollbackToSavepoint other

theorem World.Exclusive.effect (exclusive : w.Exclusive) (effect : Effect env p w w') : w'.Exclusive := by
  intro x q r mode update held
  cases effect with
  | frame _ _ rowLocks =>
    rw [rowLocks] at update held
    exact exclusive x q r mode update held
  | session => exact exclusive x q r mode update held
  | key => exact exclusive x q r mode update held
  | finish => exact exclusive x q r mode (List.mem_filter.1 update).1 (List.mem_filter.1 held).1
  | rollback => exact exclusive x q r mode (List.mem_filter.1 update).1 (List.mem_filter.1 held).1
  | forUpdate y granted =>
    rcases World.mem_rowLocks_lock.1 update with ⟨rfl, mine⟩ | before
    · cases mine
      exact (World.mem_rowLocks_lock.1 held).elim (fun own => congrArg Prod.fst own.2) (granted _)
    · rcases World.mem_rowLocks_lock.1 held with ⟨rfl, mine⟩ | before'
      · cases mine
        exact (granted _ before).symm
      · exact exclusive x q r mode before before'
  | keyShare session y granted =>
    have before := (World.mem_rowLocks_lock.1 update).resolve_left fun own => by cases own.2
    rcases World.mem_rowLocks_lock.1 held with ⟨rfl, mine⟩ | before'
    · cases mine
      exact (granted _ before).elim Eq.symm fun shared => by cases shared
    · exact exclusive x q r mode before before'

theorem World.Exclusive.finish (exclusive : w.Exclusive) : (w.finish p).Exclusive :=
  fun x q r mode update held => exclusive x q r mode (List.mem_filter.1 update).1 (List.mem_filter.1 held).1

namespace Progress.Tracks

theorem visible (tracks : φ.Tracks env p w) (blank : φ.writes = {}) : w.visible p = w.db := by
  simp [World.visible, tracks.session, blank]

theorem frame (tracks : φ.Tracks env p w) (sessions : w'.sessions = w.sessions) (rowLocks : w'.rowLocks = w.rowLocks)
    (keyLocks : w'.keyLocks = w.keyLocks) (db : w'.db = w.db) : φ.Tracks env p w' where
  session := by rw [sessions, tracks.session]
  blank := tracks.blank
  forUpdate x := by rw [rowLocks, tracks.forUpdate]
  keyShare x := by rw [rowLocks, tracks.keyShare]
  keys key held := tracks.keys key (by rwa [keyLocks] at held)
  found := db ▸ tracks.found

theorem know (tracks : φ.Tracks env p w) {rows : List Account}
    (found : ∀ account ∈ rows, account ∈ w.db.accounts) : (φ.know rows).Tracks env p w := by
  refine { tracks with found := fun account member => ?_ }
  rcases List.mem_append.1 member with known | cash
  · exact (List.mem_append.1 known).elim (found account) fun known =>
      tracks.found account (List.mem_append_left _ known)
  · exact tracks.found account (List.mem_append_right _ cash)

theorem knowCash (tracks : φ.Tracks env p w) {rows : List Account}
    (found : ∀ account ∈ rows, account ∈ w.db.accounts) : (φ.knowCash rows).Tracks env p w := by
  refine { tracks with found := fun account member => ?_ }
  rcases List.mem_append.1 member with known | cash
  · exact tracks.found account (List.mem_append_left _ known)
  · exact (List.mem_append.1 cash).elim (found account) fun cash =>
      tracks.found account (List.mem_append_right _ cash)

theorem insert (tracks : φ.Tracks env p w) (rows : Tables) (unentered : rows.entries = []) :
    (φ.insert rows).Tracks env p (w.write p rows) where
  session := by simp [World.write, World.setSession, tracks.session]
  blank := tracks.blank
  forUpdate := tracks.forUpdate
  keyShare x := by simpa [World.write, World.setSession, unentered] using tracks.keyShare x
  keys key held := by
    rw [Progress.insert, Tables.keys_append]
    exact List.mem_append_left _ (tracks.keys key held)
  found := tracks.found

theorem insertKey (tracks : φ.Tracks env p w) {transaction : Transaction} {key : String}
    (keyed : transaction.idempotencyKey = some key) :
    (φ.insert { transactions := [transaction] }).Tracks env p
    ((w.write p { transactions := [transaction] }).holdKey p key) := by
  have inserted : (φ.insert { transactions := [transaction] }).Tracks env p
      (w.write p { transactions := [transaction] }) :=
    tracks.insert _ rfl
  refine ⟨inserted.session, inserted.blank, inserted.forUpdate, inserted.keyShare, fun key' held =>
    ?_, inserted.found⟩
  rcases World.keyLocks_holdKey.1 held with ⟨rfl, -⟩ | ⟨-, before⟩
  · rw [Progress.insert, Tables.keys_append]
    exact List.mem_append_right _ (by simp [Tables.keys, keyed])
  · exact inserted.keys key' before

theorem insertEntry (tracks : φ.Tracks env p w) (entry : LedgerEntry) (unlocked : ¬env.foreignKeyLocks) :
    (φ.insert { entries := [entry] }).Tracks env p (w.write p { entries := [entry] }) where
  session := by simp [World.write, World.setSession, tracks.session]
  blank := tracks.blank
  forUpdate := tracks.forUpdate
  keyShare x := by
    rw [show (w.write p { entries := [entry] }).rowLocks = w.rowLocks from rfl, tracks.keyShare]
    simp [unlocked]
  keys key held := by
    rw [Progress.insert, Tables.keys_append]
    exact List.mem_append_left _ (tracks.keys key held)
  found := tracks.found

theorem insertEntry_lock (tracks : φ.Tracks env p w) (entry : LedgerEntry) (locks : env.foreignKeyLocks) :
    (φ.insert { entries := [entry] }).Tracks env p
    ((w.write p { entries := [entry] }).lock p entry.accountId .keyShare) where
  session := by simp [World.write, World.setSession, World.lock, tracks.session]
  blank := tracks.blank
  forUpdate x := by
    refine Iff.trans ?_ (tracks.forUpdate x)
    simp [World.mem_rowLocks_lock, World.write, World.setSession]
  keyShare x := by
    rw [World.mem_rowLocks_lock, show (w.write p { entries := [entry] }).rowLocks = w.rowLocks from rfl,
      tracks.keyShare x]
    constructor
    · rintro (⟨own, -⟩ | ⟨_, old, member, own⟩)
      · exact ⟨locks, entry, List.mem_append_right _ List.mem_cons_self, own.symm⟩
      · exact ⟨locks, old, List.mem_append_left _ member, own⟩
    · rintro ⟨_, old, member, own⟩
      rcases List.mem_append.1 member with earlier | new
      · exact .inr ⟨locks, old, earlier, own⟩
      · obtain rfl := List.mem_singleton.1 new
        exact .inl ⟨own.symm, rfl⟩
  keys key held := by
    rw [Progress.insert, Tables.keys_append]
    exact List.mem_append_left _ (tracks.keys key held)
  found := tracks.found

theorem lock (tracks : φ.Tracks env p w) (x : UUID) :
    Tracks env p { φ with locked := x :: φ.locked } (w.lock p x .forUpdate) where
  session := tracks.session
  blank := tracks.blank
  forUpdate y := by simp [World.mem_rowLocks_lock, tracks.forUpdate y]
  keyShare y := by
    refine Iff.trans ?_ (tracks.keyShare y)
    simp [World.mem_rowLocks_lock]
  keys := tracks.keys
  found := tracks.found

theorem finish (p : ℕ) (w : World) (db : Tables) : Tracks env p {} { w.finish p with db } where
  session := by simp [World.finish]
  blank := nofun
  forUpdate x := by simp [World.finish]
  keyShare x := by simp [World.finish]
  keys key held := by
    simp only [World.finish] at held
    split_ifs at held with mine
    exact absurd held mine
  found := nofun

theorem rollback (tracks : φ.Tracks env p w) :
    Tracks env p { φ with writes := φ.saved.getD {}, saved := none } (w.rollbackToSavepoint p) where
  session := by simp [World.rollbackToSavepoint, tracks.session]
  blank := nofun
  forUpdate x := by simpa [World.rollbackToSavepoint] using tracks.forUpdate x
  keyShare x := by
    have none : φ.saved.getD {} = {} := by
      cases saved : φ.saved with
      | none => rfl
      | some rows => exact tracks.blank rows saved
    simp [World.rollbackToSavepoint, none]
  keys key held := by
    simp only [World.rollbackToSavepoint] at held
    split_ifs at held with gone
    rw [tracks.session] at gone
    by_contra kept
    exact gone ⟨held, kept⟩
  found := tracks.found

theorem own {request : Request} {stmt : Stmt} {choice : Choice} {result : stmt.Result} (tracks : φ.Tracks env p w)
    (allowed : φ.Allowed request stmt) (executed : exec env p stmt choice w = some (result, w')) :
    (φ.after stmt result).Tracks env p w' := by
  cases stmt with
  | selectAccount x =>
    cases executed
    refine tracks.know fun account member => ?_
    rw [tracks.visible allowed.1] at member
    exact (List.mem_filter.1 member).1
  | selectAccountsIn ids =>
    cases executed
    refine tracks.know fun account member => ?_
    rw [tracks.visible allowed.1] at member
    exact (List.mem_filter.1 ((List.mem_insertionSort _).1 member)).1
  | selectSystemCash =>
    cases executed
    refine tracks.knowCash fun account member => ?_
    rw [tracks.visible allowed.1] at member
    exact (List.mem_filter.1 member).1
  | lockAccount x =>
    simp only [exec] at executed
    split_ifs at executed
    cases executed
    exact tracks.lock x
  | uuid4 =>
    cases choice <;> simp only [exec] at executed
    · cases executed
    · split_ifs at executed
      cases executed
      exact ⟨tracks.session, tracks.blank, tracks.forUpdate, tracks.keyShare, tracks.keys, tracks.found⟩
    · cases executed
  | insertAccount account =>
    simp only [exec] at executed
    split at executed
    · cases executed
      exact tracks
    · rename_i row stored
      cases executed
      simpa [Progress.after, stored] using tracks.insert ({ accounts := [row] } : Tables) rfl
  | insertTransaction transaction =>
    rcases exec_insertTransaction executed with
      ⟨_, rfl, rfl⟩ | ⟨row, stored, ⟨_, rfl, rfl⟩ |
        ⟨key, keyed, ⟨_, rfl, rfl⟩ | ⟨_, _, rfl, rfl⟩⟩⟩
    · exact tracks
    · simpa [Progress.after, stored] using tracks.insert ({ transactions := [row] } : Tables) rfl
    · exact tracks
    · simpa [Progress.after, stored] using tracks.insertKey keyed
  | insertEntry transactionId x amount =>
    cases stored : Numeric.cast 20 2 amount with
    | none =>
      simp only [exec, stored] at executed
      cases executed
      exact tracks
    | some amount' =>
      simp only [exec, stored] at executed
      split_ifs at executed with empty locks granted
      · cases executed
        exact tracks
      · cases executed
        simpa [Progress.after, stored] using tracks.insertEntry_lock ⟨transactionId, x, amount'⟩ locks
      · cases executed
        simpa [Progress.after, stored] using tracks.insertEntry ⟨transactionId, x, amount'⟩ locks
  | insertEvent event =>
    cases executed
    exact tracks.insert _ rfl
  | savepoint =>
    cases executed
    refine ⟨by simp [World.setSession, tracks.session], fun rows saved => ?_, tracks.forUpdate,
      tracks.keyShare, tracks.keys, tracks.found⟩
    cases saved
    exact allowed
  | releaseSavepoint =>
    cases executed
    exact ⟨by simp [World.setSession, tracks.session], (fun rows saved => by cases saved), tracks.forUpdate,
      tracks.keyShare, tracks.keys, tracks.found⟩
  | rollbackToSavepoint =>
    cases executed
    exact tracks.rollback
  | commit =>
    cases executed
    exact .finish p { w with db := w.db ++ (w.sessions p).writes } _
  | rollback =>
    cases executed
    exact .finish p w w.db
  | redisGet | redisSet | redisDelete =>
    cases choice <;> simp only [exec] at executed <;> cases executed <;> exact tracks.frame rfl rfl rfl rfl
  | sumEntries | now =>
    cases executed
    exact ⟨tracks.session, tracks.blank, tracks.forUpdate, tracks.keyShare, tracks.keys, tracks.found⟩
  | _ =>
    cases executed
    exact tracks.frame rfl rfl rfl rfl

theorem others (tracks : φ.Tracks env p w) (apart : World.Apart p w w') (grows : ∃ rows, w'.db = w.db ++ rows) :
    φ.Tracks env p w' where
  session := apart.session.trans tracks.session
  blank := tracks.blank
  forUpdate x := (apart.rowLocks x _).trans (tracks.forUpdate x)
  keyShare x := (apart.rowLocks x _).trans (tracks.keyShare x)
  keys key held := tracks.keys key ((apart.keyLocks key).1 held)
  found account member := by
    obtain ⟨rows, same⟩ := grows
    rw [same]
    exact List.mem_append_left _ (tracks.found account member)

end Progress.Tracks

abbrev progress (env : Deployment) (p : ℕ) (trace : List (Executed language)) : Progress :=
  (procedure env).phase p trace

section Runs
variable {ok : State (machine env) → Action (machine env) → Prop} {s t : State (machine env)}
  {a : Action (machine env)} {trace : List (Executed language)}

theorem apart_of_step (stepped : (machine env).step s a = some t) (other : ∀ choice, a ≠ .step q choice)
    (unclosed : a ≠ .close q) : World.Apart q s.world t.world := by
  rcases Machine.step_cases stepped with ⟨p, request, rfl, fresh, rfl⟩ |
    ⟨p, choice, proc, stmt, next, result, w', rfl, found, rest, executed, rfl⟩ |
    ⟨p, proc, rfl, found, running, rfl⟩ | ⟨p, proc, rfl, found, finished, rfl⟩ | ⟨e, w', rfl, ticked, rfl⟩
  · exact .refl q _
  · exact (effect_of_exec executed).apart fun same => other choice (by rw [same])
  · exact .refl q _
  · exact .finish fun same => unclosed (by rw [same])
  · cases ticked
    exact ⟨rfl, fun _ _ => .rfl, fun _ => .rfl⟩

theorem exclusive_of_runs (opening : w.Opening) (runs : (machine env).Runs ok ((machine env).initial w) s) :
    World.Exclusive s.world := by
  induction runs with
  | refl =>
    intro x p q mode held
    rw [show World.rowLocks ((machine env).initial w).world x = [] from opening.rowLocks x] at held
    cases held
  | tail _ stepped ih =>
    obtain ⟨a, _, stepped⟩ := stepped
    rcases Machine.step_cases stepped with ⟨p, request, rfl, fresh, rfl⟩ |
      ⟨p, choice, proc, stmt, next, result, w', rfl, found, rest, executed, rfl⟩ |
      ⟨p, proc, rfl, found, running, rfl⟩ | ⟨p, proc, rfl, found, finished, rfl⟩ |
        ⟨e, w', rfl, ticked, rfl⟩
    · exact ih
    · exact ih.effect (effect_of_exec executed)
    · exact ih
    · exact ih.finish
    · cases ticked
      exact ih

theorem allowed_of_traces (traces : (machine env).Traces ok ((machine env).initial w) trace s)
    {proc : Proc (machine env)}
    {stmt : Stmt} {next : stmt.Result → Code Value} (found : s.procs p = some proc)
    (rest : proc.rest = .call stmt next) :
    (progress env p trace).Allowed proc.request stmt := by
  have follows := Protocol.follows_of_traces (Φ := fun _ => True) (Q := fun _ _ _ => True) (fun _ _ _ _ => trivial)
    (fun request _ => proceeds_body request) (fun _ => trivial) traces found
  rw [rest] at follows
  exact follows.1

theorem World.Opening.tracks (opening : w.Opening) (p : ℕ) : Progress.Tracks env p {} w := by
  refine ⟨opening.sessions p, nofun, fun x => ?_, fun x => ?_, fun key held => ?_, nofun⟩
  · rw [opening.rowLocks x]
    exact ⟨nofun, nofun⟩
  · rw [opening.rowLocks x]
    exact ⟨nofun, nofun⟩
  · rw [opening.keyLocks key] at held
    cases held

theorem tracks_of_traces (opening : w.Opening) (traces : (machine env).Traces ok ((machine env).initial w) trace s)
    (running : Protocol.Open s p) : (progress env p trace).Tracks env p s.world := by
  refine Protocol.knows_of_traces (P := procedure env) (K := fun p φ w => φ.Tracks env p w)
    opening.tracks ?_ ?_ traces running
  · intro trace s p proc choice stmt next result w' traces _ found rest executed tracks
    exact tracks.own (allowed_of_traces traces found rest) executed
  · intro trace s t a q traces _ stepped other unclosed _ tracks
    exact tracks.others (apart_of_step stepped other unclosed)
      (grows_of_step (covers_all opening traces.runs) stepped)

end Runs
end LedgerFlow.Ledger
