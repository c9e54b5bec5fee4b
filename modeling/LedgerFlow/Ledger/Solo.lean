import LedgerFlow.Concurrency.Serial
import LedgerFlow.Ledger.Posting
import LedgerFlow.Ledger.Procedure

/-! A call that runs alone: on tables that meet its checks it returns and has posted. -/

namespace LedgerFlow.Ledger
open Accounts Outbox Concurrency

def Tables.undated (t : Tables) : Tables where
  accounts := t.accounts
  transactions := t.transactions.map fun transaction => { transaction with createdAt := 0 }
  entries := t.entries
  events := t.events.map fun event => { event with createdAt := 0 }

structure World.Idle (w : World) : Prop where
  sessions : ∀ p, w.sessions p = {}
  rowLocks : ∀ x, w.rowLocks x = []
  keyLocks : ∀ key, w.keyLocks key = none

/-- Session `p` alone is open; it has begun on `u`, inserted `writes` and drawn `ids`. -/
structure World.Solo (p : ℕ) (u : World) (writes : Tables) (ids : List UUID) (w : World) : Prop where
  db : w.db = u.db
  session : (w.sessions p).writes = writes
  others : ∀ q, q ≠ p → w.sessions q = {}
  rowLocks : ∀ x, ∀ holder ∈ w.rowLocks x, holder.1 = p
  keyLocks : ∀ key q, w.keyLocks key = some q → q = p ∧ key ∈ writes.keys
  issued : ∀ id ∈ w.issued.map (·.2), id ∈ u.issued.map (·.2) ∨ id ∈ ids

/-- A call has posted `rows`, up to the times, on what was there in `u`. -/
structure World.Posted (p : ℕ) (u : World) (rows : Tables) (w : World) : Prop where
  db : ∃ added, w.db = u.db ++ added ∧ added.undated = rows.undated
  idle : (w.finish p).Idle
  issued : ∀ id ∈ w.issued.map (·.2), id ∈ u.issued.map (·.2) ∨ id ∈ rows.ids

variable {env : Deployment} {p : ℕ} {u w : World} {writes rows : Tables} {ids : List UUID}

@[simp] theorem Posting.ids_rows (P : Posting) : P.rows.ids = [P.transaction.transactionId, P.event.eventId] := rfl

theorem Posting.undated_rows (P : Posting) (t t' : Timestamp) :
    ({ P with
      transaction := { P.transaction with createdAt := t }
      event := { P.event with createdAt := t' } } : Posting).rows.undated = P.rows.undated := rfl

theorem World.Idle.solo (idle : u.Idle) (p : ℕ) : World.Solo p u {} [] u where
  db := rfl
  session := by rw [idle.sessions p]
  others q _ := idle.sessions q
  rowLocks x holder held := by simp [idle.rowLocks x] at held
  keyLocks key q held := by simp [idle.keyLocks key] at held
  issued _ member := .inl member

namespace World.Solo

theorem visible (solo : Solo p u {} ids w) : w.visible p = u.db := by
  rw [World.visible, solo.session, Tables.append_empty, solo.db]

theorem write (solo : Solo p u writes ids w) (new : Tables) : Solo p u (writes ++ new) ids (w.write p new) where
  db := solo.db
  session := by simp [World.write, World.setSession, solo.session]
  others q other := by simp [World.write, World.setSession, other, solo.others q other]
  rowLocks := solo.rowLocks
  keyLocks key q held := by
    obtain ⟨same, member⟩ := solo.keyLocks key q held
    exact ⟨same, by simp [member]⟩
  issued := solo.issued

theorem lock (solo : Solo p u writes ids w) (x : UUID) (mode : LockMode) : Solo p u writes ids (w.lock p x mode) where
  db := solo.db
  session := solo.session
  others := solo.others
  rowLocks y holder held := by
    rcases World.mem_rowLocks_lock.1 held with ⟨-, rfl⟩ | held
    · rfl
    · exact solo.rowLocks y holder held
  keyLocks := solo.keyLocks
  issued := solo.issued

theorem holdKey (solo : Solo p u writes ids w) {key : String} (pending : key ∈ writes.keys) :
    Solo p u writes ids (w.holdKey p key) where
  db := solo.db
  session := solo.session
  others := solo.others
  rowLocks := solo.rowLocks
  keyLocks key' q held := by
    rcases World.keyLocks_holdKey.1 held with ⟨rfl, rfl⟩ | ⟨-, held⟩
    · exact ⟨rfl, pending⟩
    · exact solo.keyLocks key' q held
  issued := solo.issued

theorem setSession (solo : Solo p u writes ids w) (saved : Option Tables) :
    Solo p u writes ids (w.setSession p ⟨(w.sessions p).writes, saved⟩) where
  db := solo.db
  session := by simp [World.setSession, solo.session]
  others q other := by simp [World.setSession, other, solo.others q other]
  rowLocks := solo.rowLocks
  keyLocks := solo.keyLocks
  issued := solo.issued

theorem commit (solo : Solo p u writes ids w) (same : writes.undated = rows.undated)
    (drawn : ∀ id ∈ ids, id ∈ rows.ids) : World.Posted p u rows (w.commit p) where
  db := ⟨writes, by simp [World.commit, World.finish, solo.session, solo.db], same⟩
  idle := by
    refine ⟨fun q => ?_, fun x => ?_, fun key => ?_⟩
    · by_cases mine : q = p
      · simp [World.finish, mine]
      · simp [World.commit, World.finish, mine, solo.others q mine]
    · refine List.filter_eq_nil_iff.2 fun holder held => ?_
      simpa using solo.rowLocks x holder (List.mem_filter.1 held).1
    · cases held : w.keyLocks key with
      | none => simp [World.commit, World.finish, held]
      | some q => simp [World.commit, World.finish, held, (solo.keyLocks key q held).1]
  issued id member := (solo.issued id member).imp_right (drawn id)

theorem shares (solo : Solo p u writes ids w) (x : UUID) :
    ∀ holder ∈ w.rowLocks x, holder.1 = p ∨ holder.2 = .keyShare :=
  fun holder held => .inl (solo.rowLocks x holder held)

end World.Solo

/-- From where session `p` alone is open, the rest of a call may post `rows`. -/
abbrev Posts {α : Type} (env : Deployment) (p : ℕ) (u : World) (rows writes : Tables) (ids : List UUID)
    (prog : Code α) : Prop :=
  (machine env).Leads p (World.Solo p u writes ids) prog (World.Posted p u rows)

namespace Posts
variable {α : Type}

theorem read {stmt : Stmt} {next : stmt.Result → Code α} (result : stmt.Result)
    (same : ∀ w : World, w.visible p = u.db → exec env p stmt .proceed w = some (result, w))
    (rest : Posts env p u rows {} ids (next result)) : Posts env p u rows {} ids (.call stmt next) :=
  .returns result (fun w solo => ⟨.proceed, w, same w solo.visible, solo⟩) rest

theorem selectAccount {account : Account} {next : List Account → Code α} (consistent : u.db.Consistent)
    (member : account ∈ u.db.accounts) (rest : Posts env p u rows {} ids (next [account])) :
    Posts env p u rows {} ids (.call (.selectAccount account.accountId) next) := by
  refine read [account] (fun w visible => ?_) rest
  rcases consistent.account_cases account.accountId with ⟨_, absent⟩ | ⟨other, member', same, found⟩
  · exact absurd (List.mem_map_of_mem member) absent
  · obtain rfl := consistent.account_unique member' member same
    simp only [exec, visible, found]

theorem selectAccountsIn {source destination : Account} {next : List Account → Code α}
    (consistent : u.db.Consistent) (member : source ∈ u.db.accounts) (member' : destination ∈ u.db.accounts)
    (different : source.accountId ≠ destination.accountId)
    (rest : ∀ accounts, accounts.length = 2 → accounts.find? (·.accountId = source.accountId) = some source →
      accounts.find? (·.accountId = destination.accountId) = some destination →
        Posts env p u rows {} ids (next accounts)) :
    Posts env p u rows {} ids
      (.call (.selectAccountsIn ([source.accountId, destination.accountId].insertionSort (· ≤ ·))) next) := by
  have both : ∀ x, x ∈ [source.accountId, destination.accountId].insertionSort (· ≤ ·) ↔
      x = source.accountId ∨ x = destination.accountId :=
    fun x => by rw [List.mem_insertionSort]; simp
  refine read _ (fun w visible => by simp only [exec, visible]; rfl) ?_
  generalize ordered : (u.db.accounts.filter _).insertionSort (·.accountId ≤ ·.accountId) = accounts
  have selected : accounts.Perm _ := ordered ▸ List.perm_insertionSort _ _
  simp only [both] at selected
  have old : ∀ account ∈ accounts, account ∈ u.db.accounts :=
    fun account listed => (List.mem_filter.1 (selected.mem_iff.1 listed)).1
  rcases consistent.pair_cases different selected with ⟨_, x, party, absent⟩ | ⟨two, first, second⟩
  · rcases party with rfl | rfl
    · exact absurd (List.mem_map_of_mem member) absent
    · exact absurd (List.mem_map_of_mem member') absent
  · obtain ⟨source', listed, same, first⟩ := Tables.find_account first
    obtain ⟨destination', listed', same', second⟩ := Tables.find_account second
    obtain rfl := consistent.account_unique (old source' listed) member same
    obtain rfl := consistent.account_unique (old destination' listed') member' same'
    exact rest accounts two first second

theorem selectSystemCash {system : Account} {next : List Account → Code α}
    (found : u.db.accounts.filter (·.isSystemCash) = [system]) (rest : Posts env p u rows {} ids (next [system])) :
    Posts env p u rows {} ids (.call .selectSystemCash next) :=
  read [system] (fun w visible => by simp only [exec, visible, found]) rest

theorem sumEntries {x : UUID} {next : Decimal → Code α}
    (rest : Posts env p u rows {} ids (next (coalesceSum (u.db.amounts x)))) :
    Posts env p u rows {} ids (.call (.sumEntries x) next) :=
  read _ (fun w visible => by simp only [exec, visible]) rest

theorem selectTransaction {key : String} {next : List Transaction → Code α} (unused : key ∉ u.db.keys)
    (rest : Posts env p u rows {} ids (next [])) :
    Posts env p u rows {} ids (.call (.selectTransaction key) next) := by
  refine read [] (fun w visible => ?_) rest
  have none : u.db.transactions.filter (·.idempotencyKey = some key) = [] := by
    refine List.filter_eq_nil_iff.2 fun transaction member keyed => unused ?_
    exact List.mem_filterMap.2 ⟨transaction, member, by simpa using keyed⟩
  simp only [exec, visible, none]

theorem passes {β : Type} {c : Prop} [Decidable c] {x y : Code β} {next : β → Code α} (passed : ¬c)
    (rest : Posts env p u rows writes ids (y >>= next)) :
    Posts env p u rows writes ids ((if c then x else y) >>= next) := by
  rw [if_neg passed]
  exact rest

theorem now {next : Timestamp → Code α} (rest : ∀ t, Posts env p u rows writes ids (next t)) :
    Posts env p u rows writes ids (.call .now next) :=
  .call (fun w solo => ⟨.proceed, w.clock, w, rfl, solo⟩) rest

theorem uuid4 {next : UUID → Code α} (id : UUID) (fresh : id ∉ u.issued.map (·.2) ∧ id ∉ u.db.ids)
    (apart : id ∉ ids)
    (rest : Posts env p u rows writes (id :: ids) (next id)) : Posts env p u rows writes ids (.call .uuid4 next) := by
  refine .returns id (fun w solo => ⟨.uuid id, { w with issued := (p, id) :: w.issued }, ?_, ?_⟩) rest
  · have unused : ¬(id ∈ w.issued.map (·.2) ∨ id ∈ w.db.ids) := by
      rw [solo.db]
      rintro (issued | stored)
      · exact (solo.issued id issued).elim fresh.1 apart
      · exact fresh.2 stored
    exact if_neg unused
  · refine { solo with issued := fun other member => ?_ }
    rcases List.mem_cons.1 member with rfl | earlier
    · exact .inr List.mem_cons_self
    · exact (solo.issued other earlier).imp_right (List.mem_cons_of_mem id)

theorem lockAccount {x : UUID} {next : Unit → Code α} (rest : Posts env p u rows writes ids (next ())) :
    Posts env p u rows writes ids (.call (.lockAccount x) next) :=
  .returns () (fun w solo => ⟨.proceed, w.lock p x .forUpdate, if_pos (solo.rowLocks x),
    solo.lock x .forUpdate⟩) rest

theorem lockAll {accounts : List Account} {next : Unit → Code α} (rest : Posts env p u rows writes ids (next ())) :
    Posts env p u rows writes ids (Ledger.lockAll accounts >>= next) := by
  induction accounts with
  | nil => exact rest
  | cons account others ih => exact lockAccount ih

theorem lockRows {β : Type} {accounts : List Account} {next : List Account → Code β} {k : β → Code α}
    (rest : Posts env p u rows writes ids (next accounts >>= k)) :
    Posts env p u rows writes ids ((Ledger.lockAll accounts >>= fun _ => .ret accounts) >>= next >>= k) := by
  rw [Prog.bind_assoc, Prog.bind_assoc]
  exact lockAll rest

theorem insertKeyless {transaction : Transaction} {next : Except PyError Unit → Code α}
    (keyless : transaction.idempotencyKey = none)
    (rest : Posts env p u rows (writes ++ { transactions := [transaction] }) ids (next (.ok ()))) :
    Posts env p u rows writes ids (.call (.insertTransaction transaction) next) := by
  refine .returns (.ok ()) (fun w solo =>
    ⟨.proceed, w.write p { transactions := [transaction] }, ?_, solo.write _⟩) rest
  change exec env p (.insertTransaction transaction) .proceed w = _
  simp only [exec, Transaction.stored_keyless keyless, keyless]
  rfl

theorem insertKeyed {transaction row : Transaction} {kept : String} {next : Except PyError Unit → Code α}
    (stored : transaction.stored = some row) (keyed : row.idempotencyKey = some kept) (fresh : kept ∉ u.db.keys)
    (rest : Posts env p u rows { transactions := [row] } ids (next (.ok ()))) :
    Posts env p u rows {} ids (.call (.insertTransaction transaction) next) := by
  refine .returns (.ok ()) (fun w solo =>
    ⟨.proceed, (w.write p { transactions := [row] }).holdKey p kept, ?_, ?_⟩) rest
  · have unused : (w.visible p).transactions.any (·.idempotencyKey = some kept) = false := by
      rw [solo.visible]
      simpa [Tables.keys] using fresh
    have free : w.keyLocks kept = none := by
      rcases held : w.keyLocks kept with _ | q
      · rfl
      · exact absurd (solo.keyLocks kept q held).2 (by simp [Tables.keys])
    change exec env p (.insertTransaction transaction) .proceed w = _
    simp only [exec, stored, keyed, unused, free]
    rfl
  · exact (solo.write { transactions := [row] }).holdKey (by simp [Tables.keys, keyed])

theorem insertEntry {transactionId x : UUID} {amount : Decimal} {stored : Numeric 20 2}
    {next : Except PyError Unit → Code α}
    (kept : Numeric.cast 20 2 amount = some stored) (nonzero : env.amountNonzero → stored.unscaled ≠ 0)
    (rest : Posts env p u rows (writes ++ { entries := [⟨transactionId, x, stored⟩] }) ids (next (.ok ()))) :
    Posts env p u rows writes ids (.call (.insertEntry transactionId x amount) next) := by
  have accepted : ¬(env.amountNonzero ∧ stored.unscaled = 0) := fun ⟨on, zero⟩ => nonzero on zero
  by_cases locks : env.foreignKeyLocks
  · refine .returns (.ok ()) (fun w solo =>
      ⟨.proceed, (w.write p _).lock p x .keyShare, ?_, (solo.write _).lock x .keyShare⟩) rest
    change exec env p (.insertEntry transactionId x amount) .proceed w = _
    simp only [exec, kept, if_neg accepted, if_pos locks]
    exact if_pos (solo.shares x)
  · refine .returns (.ok ()) (fun w solo => ⟨.proceed, w.write p _, ?_, solo.write _⟩) rest
    change exec env p (.insertEntry transactionId x amount) .proceed w = _
    simp only [exec, kept, if_neg accepted, if_neg locks]
    rfl

theorem insertEvent {event : OutboxEvent} {next : Unit → Code α}
    (rest : Posts env p u rows (writes ++ { events := [event] }) ids (next ())) :
    Posts env p u rows writes ids (.call (.insertEvent event) next) :=
  .returns () (fun _ solo => ⟨.proceed, _, rfl, solo.write _⟩) rest

theorem savepoint {next : Unit → Code α} (rest : Posts env p u rows writes ids (next ())) :
    Posts env p u rows writes ids (.call .savepoint next) :=
  .returns () (fun _ solo => ⟨.proceed, _, rfl, solo.setSession _⟩) rest

theorem releaseSavepoint {next : Unit → Code α} (rest : Posts env p u rows writes ids (next ())) :
    Posts env p u rows writes ids (.call .releaseSavepoint next) :=
  .returns () (fun _ solo => ⟨.proceed, _, rfl, solo.setSession _⟩) rest

theorem commit {next : Unit → Code α} (same : writes.undated = rows.undated)
    (drawn : ∀ id ∈ ids, id ∈ rows.ids)
    (rest : (machine env).Leads p (World.Posted p u rows) (next ()) (World.Posted p u rows)) :
    Posts env p u rows writes ids (.call .commit next) :=
  .returns () (fun _ solo => ⟨.proceed, _, rfl, solo.commit same drawn⟩) rest

theorem ret {value : α} : (machine env).Leads p (World.Posted p u rows) (.ret value) (World.Posted p u rows) :=
  .ret

theorem refreshTransaction {id : UUID} {next : List Transaction → Code α}
    (rest : ∀ found, (machine env).Leads p (World.Posted p u rows) (next found) (World.Posted p u rows)) :
    (machine env).Leads p (World.Posted p u rows) (.call (.refreshTransaction id) next) (World.Posted p u rows) :=
  .call (fun w posted => ⟨.proceed, _, w, rfl, posted⟩) rest

theorem redisDelete {key : String} {next : Except PyError Unit → Code α}
    (rest : (machine env).Leads p (World.Posted p u rows) (next (.ok ())) (World.Posted p u rows)) :
    (machine env).Leads p (World.Posted p u rows) (.call (.redisDelete key) next) (World.Posted p u rows) :=
  .returns (.ok ()) (fun w posted => ⟨.proceed, { w with redis := Function.update w.redis key none }, rfl,
    ⟨posted.db, ⟨posted.idle.sessions, posted.idle.rowLocks, posted.idle.keyLocks⟩, posted.issued⟩⟩) rest

end Posts

/-- What a posting needs to be made again, by its call alone, where the tables are those of `u`. -/
structure World.Admits (env : Deployment) (u : World) (request : Request) (P : Posting) : Prop where
  idle : u.Idle
  consistent : u.db.Consistent
  posted : PostedBy env u.db request P
  covered : ∀ x amount, request.payment = some (x, amount) → amount.value.toRat ≤ u.db.balance x / 100
  looked : ∀ x, request.accounts = [x] → ∃ system, u.db.accounts.filter (·.isSystemCash) = [system]
  described : P.transaction.status = .posted ∧ P.transaction.reference = request.reference ∧
    (P.transaction.idempotencyKey = none → P.transaction.requestHash = none)
  freshKey : ∀ key, P.transaction.idempotencyKey = some key → key ∉ u.db.keys
  fresh : ∀ id ∈ P.rows.ids, id ∉ u.issued.map (·.2) ∧ id ∉ u.db.ids
  apart : P.event.eventId ≠ P.transaction.transactionId

namespace World.Admits
variable {request : Request} {P : Posting} {x a b : UUID} {amount : Amount} {key : String}

theorem not_short (admits : u.Admits env request P) (pays : request.payment = some (x, amount)) :
    ¬coalesceSum (u.db.amounts x) < amount.value := by
  have covered := admits.covered x amount pays
  rw [← Tables.total_toRat] at covered
  exact not_lt.2 covered

theorem createDeposit (admits : u.Admits env (.createDeposit x amount) P) :
    Posts env p u P.rows {} [] (body env (.createDeposit x amount)) := by
  obtain ⟨status, reference, unhashed⟩ := admits.described
  have fresh := admits.fresh
  have apart := admits.apart
  have posted := admits.posted
  obtain ⟨system', found⟩ := admits.looked x rfl
  cases posted with
  | deposit account system amount transaction debit credit eventId eventAt member active cash isCash typed
      keyless stored =>
  obtain ⟨negated, negation, debited⟩ := stored.debited
  obtain rfl : system = system' := List.mem_singleton.1 (found ▸ List.mem_filter.2 ⟨cash, isCash⟩)
  refine Posts.selectAccount admits.consistent member
    (Posts.passes (not_not.2 active) (Posts.selectSystemCash found ?_))
  refine Posts.uuid4 transaction.transactionId (fresh _ (by simp)) (by simp) ?_
  refine Posts.now fun createdAt => Posts.insertKeyless rfl ?_
  simp only [negation]
  refine Posts.insertEntry debited (fun on => (stored.accepted on).1) ?_
  refine Posts.insertEntry stored.credited (fun on => (stored.accepted on).2) ?_
  refine Posts.uuid4 eventId (fresh _ (by simp [createOutboxEvent]))
    (fun same => apart (List.mem_singleton.1 same)) ?_
  refine Posts.now fun eventAt' => Posts.insertEvent (Posts.commit ?_ ?_ ?_)
  · rw [← Posting.undated_rows _ createdAt eventAt']
    obtain ⟨⟩ := transaction
    simp only at status reference unhashed typed keyless
    subst status reference typed keyless
    rw [unhashed rfl]
    rfl
  · simp [createOutboxEvent]
  · exact Posts.refreshTransaction fun _ => Posts.redisDelete Posts.ret

theorem createWithdrawal (admits : u.Admits env (.createWithdrawal x amount) P) :
    Posts env p u P.rows {} [] (body env (.createWithdrawal x amount)) := by
  obtain ⟨status, reference, unhashed⟩ := admits.described
  have fresh := admits.fresh
  have apart := admits.apart
  have posted := admits.posted
  have enough := admits.not_short rfl
  obtain ⟨system', found⟩ := admits.looked x rfl
  cases posted with
  | withdrawal account system amount transaction debit credit eventId eventAt total member active cash
      isCash typed keyless stored =>
  obtain ⟨negated, negation, debited⟩ := stored.debited
  obtain rfl : system = system' := List.mem_singleton.1 (found ▸ List.mem_filter.2 ⟨cash, isCash⟩)
  refine Posts.selectAccount admits.consistent member
    (Posts.lockAccount (Posts.passes (not_not.2 active) (Posts.sumEntries ?_)))
  simp only [decimalOf_eq]
  refine Posts.passes enough (Posts.selectSystemCash found ?_)
  refine Posts.uuid4 transaction.transactionId (fresh _ (by simp)) (by simp) ?_
  refine Posts.now fun createdAt => Posts.insertKeyless rfl ?_
  simp only [negation]
  refine Posts.insertEntry debited (fun on => (stored.accepted on).1) ?_
  refine Posts.insertEntry stored.credited (fun on => (stored.accepted on).2) ?_
  refine Posts.uuid4 eventId (fresh _ (by simp [createOutboxEvent]))
    (fun same => apart (List.mem_singleton.1 same)) ?_
  refine Posts.now fun eventAt' => Posts.insertEvent (Posts.commit ?_ ?_ ?_)
  · rw [← Posting.undated_rows _ createdAt eventAt']
    obtain ⟨⟩ := transaction
    simp only at status reference unhashed typed keyless
    subst status reference typed keyless
    rw [unhashed rfl]
    rfl
  · simp [createOutboxEvent]
  · exact Posts.refreshTransaction fun _ => Posts.redisDelete Posts.ret

theorem createTransfer (admits : u.Admits env (.createTransfer a b amount key) P) :
    Posts env p u P.rows {} [] (body env (.createTransfer a b amount key)) := by
  obtain ⟨status, reference, unhashed⟩ := admits.described
  have fresh := admits.fresh
  have apart := admits.apart
  have posted := admits.posted
  have freshKey := admits.freshKey
  have enough := admits.not_short rfl
  cases posted with
  | transfer source destination amount key transaction debit credit eventId eventAt total member member'
      different active active' currencies fits typed keyed hashed stored =>
  obtain ⟨negated, negation, debited⟩ := stored.debited
  obtain ⟨kept, keeps⟩ := Option.isSome_iff_exists.1 fits
  rw [keeps] at keyed
  have unused : key ∉ u.db.keys := by
    intro member
    have same := keeps.symm.trans (admits.consistent.fits key member)
    exact freshKey kept keyed (Option.some.inj same ▸ member)
  refine Posts.selectTransaction unused (Posts.passes different ?_)
  refine Posts.selectAccountsIn admits.consistent member member' different fun accounts two first second => ?_
  refine Posts.lockRows (Posts.passes (not_not.2 two) ?_)
  simp only [first, second]
  refine Posts.passes (not_not.2 active)
    (Posts.passes (not_not.2 active') (Posts.passes (not_not.2 currencies) (Posts.sumEntries ?_)))
  simp only [decimalOf_eq]
  refine Posts.passes enough (Posts.savepoint ?_)
  refine Posts.uuid4 transaction.transactionId (fresh _ (by simp)) (by simp) ?_
  refine Posts.now fun createdAt => ?_
  refine Posts.insertKeyed (Transaction.stored_keyed rfl |>.trans (by rw [keeps]; rfl)) rfl (freshKey kept keyed) ?_
  simp only [negation]
  refine Posts.insertEntry debited (fun on => (stored.accepted on).1) ?_
  refine Posts.insertEntry stored.credited (fun on => (stored.accepted on).2) ?_
  refine Posts.uuid4 eventId (fresh _ (by simp [createOutboxEvent]))
    (fun same => apart (List.mem_singleton.1 same)) ?_
  refine Posts.now fun eventAt' => Posts.insertEvent (Posts.releaseSavepoint (Posts.commit ?_ ?_ ?_))
  · rw [← Posting.undated_rows _ createdAt eventAt']
    obtain ⟨⟩ := transaction
    simp only at status reference unhashed typed keyed hashed
    subst status reference typed keyed hashed
    rfl
  · simp [createOutboxEvent]
  · exact Posts.refreshTransaction fun _ => Posts.redisDelete (Posts.redisDelete Posts.ret)

theorem executes (admits : u.Admits env request P) (p : ℕ) :
    ∃ value w, (machine env).Executes p (body env request) u (.ok value) w ∧ World.Posted p u P.rows w := by
  have posts : Posts env p u P.rows {} [] (body env request) := by
    cases admits.posted with
    | deposit => exact admits.createDeposit
    | withdrawal => exact admits.createWithdrawal
    | transfer => exact admits.createTransfer
  exact posts u (admits.idle.solo p)

end World.Admits
end LedgerFlow.Ledger
