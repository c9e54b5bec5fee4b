import LedgerFlow.Ledger.PointInTime
import LedgerFlow.Ledger.Tracking

/-! No point-in-time balance of a user's account is ever negative: a debit is stamped after all the entries that
its balance was summed from. -/

namespace LedgerFlow.Ledger
open Accounts Outbox Concurrency

def Tables.balanceUntil (t : Tables) (x : UUID) (timestamp : Timestamp) : ℤ :=
  ((t.amountsUntil x timestamp).map (·.unscaled)).sum

def World.Dated (w : World) : Prop := ∀ transaction ∈ w.db.transactions, transaction.createdAt ≤ w.clock

/-- No balance at any point in time is negative, except those of the system account. -/
def Tables.Solvent (t : Tables) : Prop := ∀ x timestamp, ¬t.IsSystemCash x → 0 ≤ t.balanceUntil x timestamp

variable {env : Deployment} {db : Tables} {request : Request} {P : Posting} {p q : ℕ} {w w' : World} {φ : Progress}
  {x : UUID} {timestamp : Timestamp}

theorem Tables.balanceUntil_toRat (t : Tables) (x : UUID) (timestamp : Timestamp) :
    (coalesceSum (t.amountsUntil x timestamp)).toRat = t.balanceUntil x timestamp / 100 :=
  coalesceSum_toRat _

theorem Commits.balanceUntil {rows : Tables} (commits : Commits env db request rows) (consistent : db.Consistent)
    (x : UUID) (timestamp : Timestamp) :
    (db ++ rows).balanceUntil x timestamp = db.balanceUntil x timestamp + rows.balanceUntil x timestamp := by
  rw [Tables.balanceUntil, commits.amountsUntil consistent, List.map_append, List.sum_append]
  rfl

theorem Posting.balanceUntil_rows (P : Posting) (x : UUID) (timestamp : Timestamp) :
    P.rows.balanceUntil x timestamp = if P.transaction.createdAt ≤ timestamp then P.rows.balance x else 0 := by
  by_cases stamped : P.transaction.createdAt ≤ timestamp
  · simp [Tables.balanceUntil, Tables.amountsUntil, Tables.balance, Tables.amounts, Posting.rows, stamped,
      List.filter_cons]
    split_ifs <;> simp
  · simp [Tables.balanceUntil, Tables.amountsUntil, Posting.rows, stamped, List.flatMap_eq_nil_iff.2]

theorem Tables.Consistent.balanceUntil (consistent : db.Consistent)
    (dated : ∀ transaction ∈ db.transactions, transaction.createdAt ≤ timestamp) :
    db.balanceUntil x timestamp = db.balance x := by
  have one : ∀ entry ∈ db.entries, ((db.transactions.filter fun transaction =>
      transaction.transactionId = entry.transactionId ∧ transaction.createdAt ≤ timestamp).map fun _ =>
        entry.amount) = [entry.amount] := by
    intro entry member
    obtain ⟨transaction, listed, same⟩ := List.mem_map.1 (consistent.transactionOf entry member)
    rcases Tables.filter_unique (P := fun transaction => transaction.transactionId = entry.transactionId ∧
      transaction.createdAt ≤ timestamp) (List.Nodup.of_map _ consistent.transactionIds)
      (fun a left b right own own' => consistent.transaction_unique left right (own.1.trans own'.1.symm)) with
      ⟨_, none⟩ | ⟨found, _, _, only⟩
    · exact absurd ⟨same, dated transaction listed⟩ (none transaction listed)
    · rw [only]
      rfl
  have amounts : db.amountsUntil x timestamp = db.amounts x := by
    rw [Tables.amountsUntil, Tables.amounts, List.flatMap_congr fun entry member =>
      one entry (List.mem_filter.1 member).1]
    exact (List.map_eq_flatMap ..).symm
  rw [Tables.balanceUntil, amounts]
  rfl

theorem PostedBy.payment (posted : PostedBy env db request P) : db.IsSystemCash P.payer ∨
    ∃ amount, request.payment = some (P.payer, amount) ∧ Stores env amount.value P.debit P.credit := by
  cases posted with
  | deposit _ system _ _ _ _ _ _ _ _ cash isCash => exact .inl ⟨system, cash, rfl, isCash⟩
  | withdrawal _ _ amount _ _ _ _ _ _ _ _ _ _ _ _ stored => exact .inr ⟨amount, rfl, stored⟩
  | transfer _ _ amount _ _ _ _ _ _ _ _ _ _ _ _ _ _ _ _ _ stored => exact .inr ⟨amount, rfl, stored⟩

structure Progress.Stamped (φ : Progress) (w : World) : Prop where
  past : ∀ t ∈ φ.stamps, t ≤ w.clock
  stamped : ∀ transaction ∈ φ.writes.transactions, transaction.createdAt ∈ φ.stamps

/-- The sum of a locked account is there at every time that is not before a time read since. -/
def Progress.Covered (env : Deployment) (φ : Progress) (w : World) : Prop :=
  ∀ x total, (x, total) ∈ φ.sums → x ∈ φ.locked → (env.foreignKeyLocks ∨ ¬w.db.IsSystemCash x) →
    ∀ timestamp, (w.clock ≤ timestamp ∨ ∃ t ∈ φ.stamps, t ≤ timestamp) →
      total.toRat ≤ w.db.balanceUntil x timestamp / 100

theorem Progress.Stamped.insert (stamped : φ.Stamped w) {rows : Tables} (clock : w'.clock = w.clock)
    (new : ∀ transaction ∈ rows.transactions, transaction.createdAt ∈ φ.stamps) :
    (φ.insert rows).Stamped w' where
  past := by rw [clock]; exact stamped.past
  stamped transaction member := (List.mem_append.1 member).elim (stamped.stamped transaction) (new transaction)

theorem Progress.Stamped.own {stmt : Stmt} {choice : Choice} {result : stmt.Result} (stamped : φ.Stamped w)
    (tracks : φ.Tracks env p w) (allowed : φ.Allowed request stmt)
    (executed : exec env p stmt choice w = some (result, w')) : (φ.after stmt result).Stamped w' := by
  have clock := exec_clock executed
  have kept : φ.Stamped w' := ⟨by rw [clock]; exact stamped.past, stamped.stamped⟩
  cases stmt with
  | sumEntries y =>
    refine ⟨fun _ absurd => (List.not_mem_nil absurd).elim, fun transaction member => ?_⟩
    change transaction ∈ φ.writes.transactions at member
    rw [show φ.writes = {} from allowed] at member
    cases member
  | now =>
    cases executed
    refine ⟨fun t member => ?_, fun transaction member =>
      List.mem_cons_of_mem _ (stamped.stamped transaction member)⟩
    rcases List.mem_cons.1 member with rfl | earlier
    · exact le_rfl
    · exact stamped.past t earlier
  | insertTransaction transaction =>
    cases result with
    | error error => exact kept
    | ok _ =>
      refine stamped.insert clock fun row member => ?_
      have stored := (Transaction.stored_cases (Option.mem_toList.1 member)).1
      rw [stored]
      exact allowed.2.1
  | insertAccount account =>
    cases result with
    | error error => exact kept
    | ok _ => exact stamped.insert clock fun _ member => absurd member List.not_mem_nil
  | insertEvent event => exact stamped.insert clock fun _ member => absurd member List.not_mem_nil
  | insertEntry transactionId y amount =>
    cases result with
    | error error => exact kept
    | ok _ =>
      cases stored : Numeric.cast 20 2 amount with
      | none => simpa only [Progress.after, stored] using kept
      | some amount' =>
        simp only [Progress.after, stored]
        exact stamped.insert clock fun _ member => absurd member List.not_mem_nil
  | rollbackToSavepoint =>
    refine ⟨kept.past, fun transaction member => ?_⟩
    change transaction ∈ (φ.saved.getD {}).transactions at member
    cases saved : φ.saved with
    | none =>
      rw [saved] at member
      cases member
    | some rows =>
      rw [saved, Option.getD_some, tracks.blank rows saved] at member
      cases member
  | commit | rollback =>
    exact ⟨fun _ absurd => (List.not_mem_nil absurd).elim, fun _ absurd => (List.not_mem_nil absurd).elim⟩
  | _ => exact ⟨kept.past, kept.stamped⟩

theorem Progress.Covered.keep {ψ : Progress} (covered : φ.Covered env w) (db : w'.db = w.db)
    (clock : w'.clock = w.clock)
    (stamps : ψ.stamps = φ.stamps) (sums : ψ.sums = φ.sums) (locked : ψ.locked = φ.locked) :
    ψ.Covered env w' := by
  rw [Covered, stamps, sums, locked, db, clock]
  exact covered

theorem Progress.Covered.own {stmt : Stmt} {choice : Choice} {result : stmt.Result} (covered : φ.Covered env w)
    (tracks : φ.Tracks env p w) (consistent : w.db.Consistent) (dated : w.Dated) (allowed : φ.Allowed request stmt)
    (executed : exec env p stmt choice w = some (result, w')) : (φ.after stmt result).Covered env w' := by
  have clock := exec_clock executed
  have db := (exec_frame executed).1
  cases stmt with
  | sumEntries y =>
    cases executed
    intro x total summed locked user timestamp later
    have late : w.clock ≤ timestamp := later.resolve_right fun ⟨_, member, _⟩ => absurd member List.not_mem_nil
    rcases List.mem_cons.1 summed with same | earlier
    · cases same
      rw [tracks.visible allowed, Tables.total_toRat, ← consistent.balanceUntil fun transaction member =>
        (dated transaction member).trans late]
    · exact covered x total earlier locked user timestamp (.inl late)
  | now =>
    cases executed
    intro x total summed locked user timestamp later
    refine covered x total summed locked user timestamp ?_
    rcases later with late | ⟨t, member, before⟩
    · exact .inl late
    · rcases List.mem_cons.1 member with rfl | earlier
      · exact .inl before
      · exact .inr ⟨t, earlier, before⟩
  | lockAccount y =>
    intro x total summed
    change (x, total) ∈ φ.sums at summed
    rw [allowed.2.1] at summed
    cases summed
  | insertAccount | insertTransaction =>
    cases result <;> exact covered.keep (db nofun) clock rfl rfl rfl
  | insertEntry transactionId y amount =>
    cases result with
    | error error => exact covered.keep (db nofun) clock rfl rfl rfl
    | ok _ =>
      cases stored : Numeric.cast 20 2 amount <;> simp only [Progress.after, stored] <;>
        exact covered.keep (db nofun) clock rfl rfl rfl
  | commit | rollback => exact nofun
  | _ => exact covered.keep (db nofun) clock rfl rfl rfl

theorem Progress.Covered.others (covered : φ.Covered env w) (clock : w.clock ≤ w'.clock)
    (cash : ∀ x, w.db.IsSystemCash x → w'.db.IsSystemCash x)
    (funds : ∀ x ∈ φ.locked, (env.foreignKeyLocks ∨ ¬w'.db.IsSystemCash x) → ∀ timestamp,
      w.db.balanceUntil x timestamp ≤ w'.db.balanceUntil x timestamp) : φ.Covered env w' := by
  intro x total summed locked user timestamp later
  have before := covered x total summed locked (user.imp id fun other => mt (cash x) other) timestamp
    (later.imp clock.trans id)
  refine before.trans ?_
  have more : (w.db.balanceUntil x timestamp : ℚ) ≤ w'.db.balanceUntil x timestamp :=
    Int.cast_le.2 (funds x locked user timestamp)
  linarith

section Runs
variable {ok : State (machine env) → Action (machine env) → Prop} {s t : State (machine env)}
  {a : Action (machine env)} {trace : List (Executed language)}

theorem clock_le_of_step (stepped : (machine env).step s a = some t) :
    (s.world : World).clock ≤ World.clock t.world := by
  rcases Machine.step_cases stepped with ⟨p, request, rfl, fresh, rfl⟩ |
    ⟨p, choice, proc, stmt, next, result, w', rfl, found, rest, executed, rfl⟩ |
    ⟨p, proc, rfl, found, running, rfl⟩ | ⟨p, proc, rfl, found, finished, rfl⟩ | ⟨e, w', rfl, ticked, rfl⟩
  · exact le_rfl
  · exact (exec_clock executed).ge
  · exact le_rfl
  · exact le_rfl
  · cases ticked
    exact Int.le_add_of_nonneg_right (Int.natCast_nonneg _)

theorem stamped_of_traces (opening : w.Opening) (traces : (machine env).Traces ok ((machine env).initial w) trace s)
    (running : Protocol.Open s p) : (progress env p trace).Stamped s.world := by
  refine Protocol.knows_of_traces (P := procedure env) (K := fun p φ w => φ.Stamped w)
    (fun p => ⟨fun _ absurd => (List.not_mem_nil absurd).elim, fun _ absurd =>
      (List.not_mem_nil absurd).elim⟩) ?_ ?_
    traces running
  · intro trace s p proc choice stmt next result w' traces _ found rest executed stamped
    exact stamped.own (tracks_of_traces opening traces (Protocol.open_of_call found rest))
      (allowed_of_traces traces found rest) executed
  · intro trace s t a q traces _ stepped _ _ _ stamped
    exact ⟨fun τ member => (stamped.past τ member).trans (clock_le_of_step stepped), stamped.stamped⟩

theorem commit_cases (opening : w.Opening) (traces : (machine env).Traces ok ((machine env).initial w) trace s)
    (stepped : (machine env).step s a = some t) : t.world.db = s.world.db ∨
    ∃ p choice proc next, a = .step p choice ∧ s.procs p = some proc ∧ proc.rest = .call .commit next ∧
      Commits env s.world.db proc.request (progress env p trace).writes ∧
      t.world.db = s.world.db ++ (progress env p trace).writes := by
  rcases Machine.step_cases stepped with ⟨p, request, rfl, fresh, rfl⟩ |
    ⟨p, choice, proc, stmt, next, result, w', rfl, found, rest, executed, rfl⟩ |
    ⟨p, proc, rfl, found, running, rfl⟩ | ⟨p, proc, rfl, found, finished, rfl⟩ | ⟨e, w', rfl, ticked, rfl⟩
  · exact .inl rfl
  · have covered := covers_all opening traces.runs
    by_cases commit : stmt = .commit
    · subst commit
      rcases ((sound env _).guar_of_step covered found rest executed).1.commits with same |
        ⟨rows, _, commits, grown, written⟩
      · exact .inl same
      · have session := (tracks_of_traces opening traces (Protocol.open_of_call found rest)).session
        have same : rows = (progress env p trace).writes := by rw [written, session]
        exact .inr ⟨p, choice, proc, next, rfl, found, rest, same ▸ commits, same ▸ grown⟩
    · exact .inl ((exec_frame executed).1 commit)
  · exact .inl rfl
  · exact .inl rfl
  · cases ticked
    exact .inl rfl

theorem dated_of_traces (opening : w.Opening) (start : w.Dated)
    (traces : (machine env).Traces ok ((machine env).initial w) trace s) : World.Dated s.world := by
  induction traces with
  | refl => exact start
  | tail run _ stepped ih =>
    intro transaction member
    have later := clock_le_of_step stepped
    rcases commit_cases opening run stepped with same | ⟨p, choice, proc, next, rfl, found, rest, _, grown⟩
    · rw [same] at member
      exact (ih transaction member).trans later
    · rw [grown] at member
      rcases List.mem_append.1 member with old | new
      · exact (ih transaction old).trans later
      · have stamped := stamped_of_traces opening run (Protocol.open_of_call found rest)
        exact (stamped.past _ (stamped.stamped transaction new)).trans later

theorem nonneg_of_commit (opening : w.Opening) (traces : (machine env).Traces ok ((machine env).initial w) trace s)
    {choice : Choice} {proc : Proc (machine env)} {next : Unit → Code Value}
    (stepped : (machine env).step s (.step p choice) = some t) (found : s.procs p = some proc)
    (rest : proc.rest = .call .commit next)
    (grown : t.world.db = s.world.db ++ (progress env p trace).writes) (different : q ≠ p)
    (locked : (q, LockMode.forUpdate) ∈ World.rowLocks s.world x)
    (user : env.foreignKeyLocks ∨ ¬t.world.db.IsSystemCash x) :
    0 ≤ (progress env p trace).writes.balance x := by
  by_cases locks : env.foreignKeyLocks
  · -- with an entry on the account the committing call would share its lock
    have untouched : (progress env p trace).writes.amounts x = [] := by
      rw [Tables.amounts, List.map_eq_nil_iff, List.filter_eq_nil_iff]
      intro entry member entered
      have tracks := tracks_of_traces opening traces (Protocol.open_of_call found rest)
      have shared := (tracks.keyShare x).2 ⟨locks, entry, member, by simpa using entered⟩
      exact different (exclusive_of_runs opening traces.runs x q p _ locked shared).symm
    rw [Tables.balance, untouched]
    exact le_rfl
  · have funds : s.world.db.balance x ≤ t.world.db.balance x := by
      have covered := covers_all opening traces.runs
      obtain ⟨proc', stmt, next', result, w', found', rest', executed, rfl⟩ := Machine.step_own stepped
      exact (((sound env _).guar_of_step covered found' rest' executed).1.others q different).funds locked
        (user.resolve_left locks)
    rw [grown, Tables.balance_append] at funds
    omega

/-- What is on an account that a call has locked does not get less by what the others do, now and at any time. -/
theorem funds_of_step (opening : w.Opening) (traces : (machine env).Traces ok ((machine env).initial w) trace s)
    (stepped : (machine env).step s a = some t) (other : ∀ choice, a ≠ .step q choice)
    (locked : (q, LockMode.forUpdate) ∈ World.rowLocks s.world x)
    (user : env.foreignKeyLocks ∨ ¬t.world.db.IsSystemCash x) :
    s.world.db.balance x ≤ t.world.db.balance x ∧
      ∀ timestamp, s.world.db.balanceUntil x timestamp ≤ t.world.db.balanceUntil x timestamp := by
  have covered := covers_all opening traces.runs
  rcases commit_cases opening traces stepped with same | ⟨p, choice, proc, next, rfl, found, rest, commits, grown⟩
  · rw [same]
    exact ⟨le_rfl, fun _ => le_rfl⟩
  have nonneg := nonneg_of_commit opening traces stepped found rest grown
      (fun same => other choice (by rw [same])) locked user
  rw [grown]
  refine ⟨?_, fun timestamp => ?_⟩
  · rw [Tables.balance_append]
    omega
  · rw [commits.balanceUntil covered.inv.consistent]
    refine Int.le_add_of_nonneg_right ?_
    generalize (progress env p trace).writes = rows at commits nonneg
    cases commits with
    | opens => exact le_rfl
    | posts P =>
      rw [P.balanceUntil_rows]
      split_ifs
      · exact nonneg
      · exact le_rfl

theorem covered_of_traces (opening : w.Opening) (start : w.Dated)
    (traces : (machine env).Traces ok ((machine env).initial w) trace s) (running : Protocol.Open s p) :
    (progress env p trace).Covered env s.world := by
  refine (Protocol.knows_of_traces (P := procedure env) (K := fun p φ w => φ.Tracks env p w ∧ φ.Covered env w)
    (fun p => ⟨opening.tracks p, nofun⟩) ?_ ?_ traces running).2
  · intro trace s p proc choice stmt next result w' traces _ found rest executed ⟨tracks, covered⟩
    have allowed := allowed_of_traces traces found rest
    have consistent := consistent_of_runs opening traces.runs
    exact ⟨tracks.own allowed executed, covered.own tracks consistent (dated_of_traces opening start traces)
      allowed executed⟩
  · intro trace s t a q traces _ stepped other unclosed _ ⟨tracks, covered⟩
    have grows := grows_of_step (covers_all opening traces.runs) stepped
    refine ⟨tracks.others (apart_of_step stepped other unclosed) grows, covered.others (clock_le_of_step stepped)
      (fun x cash => ?_) fun x locked user timestamp =>
        (funds_of_step opening traces stepped other ((tracks.forUpdate x).2 locked) user).2 timestamp⟩
    obtain ⟨rows, grown⟩ := grows
    exact grown ▸ cash.append

/-- When a call commits, the sums it has read cover its payment at every time from its stamp on. -/
theorem solvent_of_traces (opening : w.Opening) (start : w.Dated) (solvent : w.db.Solvent)
    (traces : (machine env).Traces ok ((machine env).initial w) trace s) : s.world.db.Solvent := by
  induction traces with
  | refl => exact solvent
  | @tail trace s t a run _ stepped ih =>
    intro x timestamp other
    have consistent := consistent_of_runs opening run.runs
    rcases commit_cases opening run stepped with same | ⟨p, choice, proc, next, rfl, found, rest, commits, grown⟩
    · rw [same] at other ⊢
      exact ih x timestamp other
    have user : ¬s.world.db.IsSystemCash x := fun cash => other (grown ▸ cash.append)
    have running := Protocol.open_of_call found rest
    have stamped := stamped_of_traces opening run running
    have covered := covered_of_traces opening start run running
    have allowed : (progress env p trace).Commits proc.request := allowed_of_traces run found rest
    have before := ih x timestamp user
    rw [grown, commits.balanceUntil consistent]
    generalize progress env p trace = φ at commits stamped covered allowed
    obtain ⟨rows, equal⟩ : ∃ rows, φ.writes = rows := ⟨_, rfl⟩
    rw [equal] at commits ⊢
    cases commits with
    | opens => exact le_add_of_le_of_nonneg before le_rfl
    | posts P posted fresh freshEvent freshKey =>
      rw [P.balanceUntil_rows, Posting.balance_rows]
      by_cases later : P.transaction.createdAt ≤ timestamp
      · have credit := posted.credit_nonneg
        have debit : P.payer = x → -P.debit.unscaled ≤ s.world.db.balanceUntil x timestamp := by
          rintro rfl
          obtain ⟨amount, pays, stored⟩ := posted.payment.resolve_left user
          obtain ⟨locked, total, summed, enough⟩ := allowed.covered _ amount pays
          have stamp := stamped.stamped P.transaction (by rw [equal]; exact List.mem_cons_self)
          exact stored.debit_le (enough.trans (covered _ total summed locked (.inr user) timestamp
            (.inr ⟨_, stamp, later⟩)))
        rw [if_pos later]
        split_ifs with payer payee payee
        · linarith [debit payer]
        · linarith [debit payer]
        · linarith
        · linarith
      · rw [if_neg later]
        linarith

end Runs

/-- No call of `get_balance_at` for a user's account returns a negative balance: not one made now, and not one made at
any time before, whatever has run meanwhile. -/
structure NeverNegative (env : Deployment) (s : State (machine env)) : Prop where
  queried : ∀ p choice x timestamp balance w', s.procs p = none →
    (machine env).alone p choice (getBalanceAt x timestamp) s.world = some (.ok balance, w') →
    ¬s.world.db.IsSystemCash x → 0 ≤ balance.toRat
  returned : ∀ p reader x timestamp value, s.procs p = some reader →
    reader.request = .getBalanceAt x timestamp →
    reader.rest = .ret value → ¬s.world.db.IsSystemCash x → ∃ balance, value = .balance balance ∧
      0 ≤ balance.toRat

theorem alone_getBalanceAt {choice : Choice} {balance : Decimal} {w' : World} (unused : w.sessions p = {})
    (executed : (machine env).alone p choice (getBalanceAt x timestamp) w = some (.ok balance, w')) :
    balance = coalesceSum (w.db.amountsUntil x timestamp) := by
  have visible : w.visible p = w.db := by simp [World.visible, unused]
  simp only [getBalanceAt, decimalOf_eq] at executed
  obtain ⟨rows, found⟩ : ∃ rows, (w.visible p).accounts.filter (·.accountId = x) = rows := ⟨_, rfl⟩
  change (machine env).alone p choice (scalarOneOrNone ((w.visible p).accounts.filter (·.accountId = x)) >>=
    _) w = _ at executed
  rw [found] at executed
  rcases rows with _ | ⟨account, _ | ⟨_, _⟩⟩
  · cases executed
  · rw [← visible]
    cases executed
    rfl
  · cases executed

theorem Tables.Solvent.toRat (solvent : db.Solvent) (user : ¬db.IsSystemCash x) :
    0 ≤ (coalesceSum (db.amountsUntil x timestamp)).toRat := by
  rw [Tables.balanceUntil_toRat]
  have nonneg : (0 : ℚ) ≤ db.balanceUntil x timestamp := Int.cast_nonneg (solvent x timestamp user)
  linarith

theorem never_negative {s : State (machine env)} (opening : w.Opening) (untouched : w.db.transactions = [])
    (unentered : w.db.entries = []) (runs : (machine env).Runs (machine env).anything ((machine env).initial w) s) :
    NeverNegative env s := by
  have start : w.Dated := fun transaction member => by simp [untouched] at member
  have solvent : w.db.Solvent := fun x timestamp _ => by simp [Tables.balanceUntil, Tables.amountsUntil, unentered]
  refine ⟨fun p choice x timestamp balance w' idle executed user => ?_,
    fun p reader x timestamp value found asked returned user => ?_⟩
  · obtain ⟨trace, traces⟩ := runs.traces
    have unused := (covers_all opening runs).idle p idle
    rw [alone_getBalanceAt unused executed]
    exact (solvent_of_traces opening start solvent traces).toRat user
  · obtain ⟨w₁, summed, rfl⟩ := answered_of_runs opening runs p reader x timestamp value found asked returned
    obtain ⟨u, reached, later, rfl⟩ := runs.past p reader found _ summed
    obtain ⟨trace, traces⟩ := reached.traces
    refine ⟨_, rfl, (solvent_of_traces opening start solvent traces).toRat fun cash => user ?_⟩
    obtain ⟨rows, grown⟩ := grows_of_runs opening reached later
    exact grown ▸ cash.append

def newBank : World := { bank with db := { accounts := [systemCash, alice, bob] } }

theorem newBank_opening : newBank.Opening where
  sessions _ := rfl
  rowLocks _ := rfl
  keyLocks _ := rfl
  issuedOnce := List.nodup_nil
  consistent := ⟨by decide, by decide, by decide, by decide, by decide, by decide, by decide⟩

/-- A deposit, two withdrawals of all of it, of which the second one waits for the first, and a query after them. -/
theorem never_negative_sample : ∃ s : State (machine sample),
    raisedBy 2 s = some (.valueError "Insufficient funds") ∧
    balanceOf 3 s = some ⟨false, 0, -2⟩ ∧ NeverNegative sample s := by
  have executed : ((machine sample).run (fun _ _ => true) ((machine sample).initial newBank)
      (deposit 0 oneRupee ++ racingWithdrawals 1 2 oneRupee 12 13 ++ balanceAtZero 3)).map
        (fun s => (raisedBy 2 s, balanceOf 3 s)) =
      some (some (.valueError "Insufficient funds"), some ⟨false, 0, -2⟩) := by
    decide +kernel
  obtain ⟨s, runs, observed⟩ := Machine.Runs.of_observed _ (fun _ _ _ => trivial) executed
  simp only [Prod.mk.injEq] at observed
  exact ⟨s, observed.1, observed.2, never_negative newBank_opening rfl rfl runs⟩

end LedgerFlow.Ledger
