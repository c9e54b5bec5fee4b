import LedgerFlow.Ledger.Idempotency
import LedgerFlow.Ledger.Liveness

/-! Retried transfers: the answer of every call that asks for a transfer which another call has committed. -/

namespace LedgerFlow.Ledger
open Accounts Outbox Concurrency

variable {env : Deployment} {db : Tables} {w : World} {s : State (machine env)}

structure Undisturbed (a : Action (machine env)) : Prop where
  unfailing : ∀ p, a ≠ .abort p
  static : ∀ p created, a ≠ .start p (.createAccount created)

/-- No call is cut off, no account is created, no transfer that locks an account names a system account, and a
transfer is committed under the key of its call. Besides, a call that sums the source's balance after the
transfer it asks for was committed finds enough. -/
structure Covered (s : State (machine env)) (a : Action (machine env)) : Prop extends Separate env s a where
  unfailing : ∀ p, a ≠ .abort p
  kept : ∀ p x y amount key, CommitsFor p (.createTransfer x y amount key) s a → varchar 255 key = some key
  covered : ∀ p choice x y amount key, a = .step p choice →
    requestOf p s = some (.createTransfer x y amount key) → nextStmt p s = some (.sumEntries x) →
    (∃ t ∈ s.world.db.transactions, t.idempotencyKey = some key ∧
      t.requestHash = some (generateTransferHash env x y amount.value)) →
    amount.value.toRat ≤ s.world.db.balance x / 100

/-- Process `d` returns `t` if it finishes, no calls wait for each other in a circle, and in every fair run from here
process `d` does finish, while `uuid4` has values left. -/
structure Returns (ok : State (machine env) → Action (machine env) → Prop) (d : ℕ) (t : Transaction)
    (u : State (machine env)) : Prop where
  returns : ∀ proc, u.procs d = some proc → proc.rest.Finished → proc.rest = .ret (.transfer t)
  undeadlocked : ¬Deadlocked env u
  answered : ∀ path actions, path 0 = u → (machine env).Fair ok path actions →
    (∀ n, ∃ value, Undrawn value (path n).world) →
    ∃ n proc, (path n).procs d = some proc ∧ proc.rest = .ret (.transfer t)

/-- Once a transfer is committed, every call for the same transfer that has not finished by then, or that is
started later, returns that transaction. -/
def RetrySafe (env : Deployment) (ok : State (machine env) → Action (machine env) → Prop) : Prop :=
  ∀ {w s s' u q choice proc a b amount key t d duplicate}, World.Opening w →
    (machine env).Runs ok ((machine env).initial w) s → ok s (.step q choice) →
    (machine env).step s (.step q choice) = some s' →
    s.procs q = some proc → proc.request = .createTransfer a b amount key →
    t ∉ s.world.db.transactions → t ∈ s'.world.db.transactions → (machine env).Runs ok s' u →
    u.procs d = some duplicate → duplicate.request = .createTransfer a b amount key →
    (∀ earlier, s'.procs d = some earlier → ¬earlier.rest.Finished) → Returns ok d t u

section Retry
variable {u s' : State (machine env)} {P : Posting} {a b : UUID} {amount : Amount} {key : String}

/-- What a transfer cannot be refused for once its posting is committed: anything but a balance that is too low. -/
theorem Refusal.insufficient {permit : Request → Prop} {past : List (Stmt × World)} {error : PyError}
    {later : Tables}
    (posted : PostedBy env db (.createTransfer a b amount key) P) (kept : varchar 255 key = some key)
    (grown : w.db = db ++ P.rows ++ later) (consistent : w.db.Consistent)
    (static : ∀ created, ¬permit (.createAccount created))
    (recent : ∀ stmt w₁ earlier, past = (stmt, w₁) :: earlier → P.transaction ∈ w₁.db.transactions)
    (refusal : Refusal env permit a b amount key past w error) :
    ∃ w₁ earlier, past = (.sumEntries a, w₁) :: earlier ∧ coalesceSum (w₁.db.amounts a) < amount.value := by
  have accounts : ∀ account ∈ db.accounts, account ∈ w.db.accounts := fun account member => by
    rw [grown]
    exact List.mem_append_left _ (List.mem_append_left _ member)
  have member : P.transaction ∈ w.db.transactions := by
    rw [grown]
    exact List.mem_append_left _ (List.mem_append_right _ (by simp [Posting.rows]))
  have keyed := posted.keyed.trans kept
  cases posted with
  | transfer source destination _ _ transaction debit credit _ _ _ found found' different active active' currencies _
      _ _ hashed stored =>
    have source' := accounts _ found
    have destination' := accounts _ found'
    cases refusal with
    | otherRequest existing member' keyed' other =>
      exact absurd (consistent.key_unique member' member keyed' keyed ▸ hashed) other
    | sameAccount same => exact absurd same different
    | missing x party absent =>
      rcases party with rfl | rfl
      · exact absurd (List.mem_map_of_mem source') (absent static)
      · exact absurd (List.mem_map_of_mem destination') (absent static)
    | sourceInactive other member' same inactive =>
      exact absurd active (consistent.account_unique member' source' same ▸ inactive)
    | destinationInactive other member' same inactive =>
      exact absurd active' (consistent.account_unique member' destination' same ▸ inactive)
    | currencyMismatch left right member' member'' same same' mismatch =>
      rw [consistent.account_unique member' source' same,
        consistent.account_unique member'' destination' same'] at mismatch
      exact absurd currencies mismatch
    | insufficientFunds w₁ earlier summed short => exact ⟨w₁, earlier, summed, short⟩
    | overflow unrepresentable =>
      obtain ⟨negated, negation, _⟩ := stored.debited
      rw [unrepresentable] at negation
      cases negation
    | keyRefused refused => cases kept.symm.trans refused
    | unstorable refused => exact absurd stored (refused debit credit)
    | unused w₁ earlier selected free =>
      refine absurd ?_ free
      exact List.mem_filterMap.2 ⟨_, recent _ w₁ earlier selected, keyed⟩

def OpensNothing (request : Request) : Prop := ∀ created, request ≠ .createAccount created

theorem Covered.admits {a : Action (machine env)} (covered : Covered s a) (p : ℕ) (request : Request)
    (same : a = .start p request) : OpensNothing request := by
  intro created equal
  subst equal
  exact covered.opens p created same

theorem returns_of_runs (covered : (contract env OpensNothing).Covers Unused s')
    (posted : PostedBy env db (.createTransfer a b amount key) P) (kept : varchar 255 key = some key)
    (grown : s'.world.db = db ++ P.rows) (runs : (machine env).Runs Covered s' u) :
    (contract env OpensNothing).Covers Unused u ∧ (∃ later, u.world.db = db ++ P.rows ++ later) ∧
    ∀ d proc, u.procs d = some proc → proc.request = .createTransfer a b amount key → proc.rest.Finished →
      s'.procs d = some proc ∨ proc.rest = .ret (.transfer P.transaction) := by
  have keyed := posted.keyed.trans kept
  induction runs with
  | refl => exact ⟨covered, ⟨{}, by simp [grown]⟩, fun d proc found _ _ => .inl found⟩
  | @tail u v _ stepped ih =>
    obtain ⟨action, allowed, stepped⟩ := stepped
    obtain ⟨covers, ⟨later, before⟩, returned⟩ := ih
    have covers' := (sound env OpensNothing).covers_step covers allowed.admits stepped
    obtain ⟨rows, after⟩ := grows_of_step covers stepped
    have after' : v.world.db = db ++ P.rows ++ (later ++ rows) := by rw [after, before, Tables.append_assoc]
    have member : P.transaction ∈ u.world.db.transactions := by
      rw [before]
      exact List.mem_append_left _ (List.mem_append_right _ (by simp [Posting.rows]))
    refine ⟨covers', ⟨_, after'⟩, fun d proc found same finished => ?_⟩
    rcases (sound env _).finished_cases covers allowed.admits stepped found finished with old |
      ⟨outcome, last⟩ | ⟨cut, _⟩
    · exact returned d proc old same finished
    · change Outcome env OpensNothing proc.past v.world proc.request proc.rest at outcome
      have recent : ∀ stmt w₁ earlier, proc.past = (stmt, w₁) :: earlier → w₁ = u.world := by
        intro stmt w₁ earlier past
        rcases last with empty | ⟨_, _, _, _, _, _, _, _, past'⟩
        · rw [empty] at past
          cases past
        · rw [past'] at past
          cases past
          rfl
      generalize rest : proc.rest = code at outcome
      rw [same] at outcome
      cases outcome with
      | transferred _ _ _ _ transaction carried member' keyed' keeps hashed =>
        have mine : P.transaction ∈ v.world.db.transactions := by
          rw [after]
          exact List.mem_append_left _ member
        obtain rfl := Option.some.inj (keeps.symm.trans kept)
        rw [covers'.inv.consistent.key_unique member' mine keyed' keyed]
        exact .inr rfl
      | refused _ _ _ _ error refusal =>
        obtain ⟨w₁, earlier, past, short⟩ := Refusal.insufficient posted kept after' covers'.inv.consistent
          (fun created admits => admits created rfl)
            (fun stmt w₁ earlier past => recent stmt w₁ earlier past ▸ member)
          refusal
        rcases last with empty | ⟨choice, before, stmt, next, same', found', request, call, past'⟩
        · rw [empty] at past
          cases past
        · rw [past'] at past
          cases past
          have enough := allowed.covered d choice a b amount key same'
            ((requestOf_eq found').trans (congrArg some (request.trans same))) (nextStmt_eq found' call)
            ⟨P.transaction, member, keyed, posted.hashed⟩
          rw [← Tables.total_toRat] at enough
          exact absurd short (not_lt.2 enough)
      | raised _ _ other => exact absurd rfl (other _ _ _ _)
    · exact absurd cut (allowed.unfailing d)

theorem posted_of_step {q : ℕ} {choice : Choice} {proc : Proc (machine env)} {t : Transaction}
    (covered : (contract env OpensNothing).Covers Unused s)
    (stepped : (machine env).step s (.step q choice) = some s')
    (found : s.procs q = some proc) (request : proc.request = .createTransfer a b amount key)
    (fresh : t ∉ s.world.db.transactions) (committed : t ∈ s'.world.db.transactions) :
    CommitsFor q (.createTransfer a b amount key) s (.step q choice) ∧
      ∃ P, PostedBy env s.world.db (.createTransfer a b amount key) P ∧ s'.world.db = s.world.db ++ P.rows ∧
        t = P.transaction := by
  rcases commits_of_step covered stepped with same | ⟨p, asked, rows, commits, _, added, grown⟩
  · exact absurd (same ▸ committed) fresh
  · obtain ⟨_, own⟩ := commits.own
    cases own
    obtain rfl : asked = .createTransfer a b amount key :=
      Option.some.inj (commits.asked.symm.trans ((requestOf_eq found).trans (congrArg some request)))
    refine ⟨commits, ?_⟩
    rw [grown] at committed
    have new := (List.mem_append.1 committed).resolve_left fresh
    cases added with
    | opens => cases new
    | posts P posted => exact ⟨P, posted, grown, List.mem_singleton.1 new⟩

theorem retry_safe (env : Deployment) : RetrySafe env Covered := by
  intro w s s' u q choice proc a b amount key t d duplicate opening before allowed stepped found request fresh
    committed after found' request' running
  have covered := covers OpensNothing
    (fun s p request allowed created same => allowed.opens p created (by rw [same])) opening before
  have covered' := (sound env OpensNothing).covers_step covered allowed.admits stepped
  obtain ⟨commits, P, posted, grown, rfl⟩ := posted_of_step covered stepped found request fresh committed
  have kept := allowed.kept q a b amount key commits
  have separate : ∀ {v}, (machine env).Runs Covered s' v →
      (machine env).Runs (Separate env) ((machine env).initial w) v :=
    fun runs => Machine.Runs.mono (fun _ _ covered => covered.toSeparate)
      ((before.tail ⟨_, allowed, stepped⟩).trans runs)
  -- a call for the transfer that has finished by the state `v` has returned its transaction
  have returns : ∀ {v proc}, (machine env).Runs Covered s' v → v.procs d = some proc →
      proc.request = .createTransfer a b amount key → proc.rest.Finished →
        proc.rest = .ret (.transfer P.transaction) := by
    intro v proc runs found same finished
    exact ((returns_of_runs covered' posted kept grown runs).2.2 d proc found same finished).resolve_left
      fun old => running proc old finished
  refine ⟨fun proc found'' finished => ?_, deadlock_free opening (separate after),
    fun path actions start fair drawn => ?_⟩
  · cases found'.symm.trans found''
    exact returns after found' request' finished
  · subst start
    obtain ⟨n, ended⟩ := ended_of_fair opening (separate after)
      (fair.mono fun _ _ covered => covered.toSeparate) drawn
    obtain ⟨final, found'', same⟩ := Machine.Runs.request (fair.runs n) found'
    exact ⟨n, final, found'', returns (after.trans (fair.runs n)) found'' (same.trans request')
      (ended d final found'')⟩

end Retry

/-- Process 0 commits the transfer from `s` to `s'`; process 1, not finished then, asks
for the same and has come to `result` in `u`. -/
def Repeats (result : Option (Except PyError UUID)) (s s' u : State (machine sample)) : Prop :=
  requestOf 0 s = some (.createTransfer 2 3 hundred "rent") ∧ rent ∉ (s.world : World).db.transactions ∧
  rent ∈ (s'.world : World).db.transactions ∧ (answer 1 s').isNone ∧
  requestOf 1 u = some (.createTransfer 2 3 hundred "rent") ∧ outcome 1 u = result

instance (result : Option (Except PyError UUID)) (s s' u : State (machine sample)) :
    Decidable (Repeats result s s' u) :=
  inferInstanceAs (Decidable (_ ∧ _ ∧ _ ∧ _ ∧ _ ∧ _))

def runAround (allow : State (machine sample) → Action (machine sample) → Bool)
    (before after : List (Action (machine sample))) (observe : State (machine sample) → State (machine sample) →
      State (machine sample) → Bool) : Option Bool :=
  ((machine sample).run allow ((machine sample).initial bank) before).bind fun s =>
    ((machine sample).run allow s [.step 0 .proceed]).bind fun s' =>
      ((machine sample).run allow s' after).map (observe s s')

theorem runAround_eq (ok : State (machine sample) → Action (machine sample) → Prop)
    {allow : State (machine sample) → Action (machine sample) → Bool} (allowed : ∀ s a, allow s a → ok s a)
    {before after : List (Action (machine sample))}
    {observe : State (machine sample) → State (machine sample) → State (machine sample) → Bool}
    (starts : ∀ q request, .start q request ∈ before ++ after → q < 2)
    (executed : runAround allow before after observe = some true) : ∃ s s' u,
      (machine sample).Runs ok ((machine sample).initial bank) s ∧ ok s (.step 0 .proceed) ∧
      (machine sample).step s (.step 0 .proceed) = some s' ∧ (machine sample).Runs ok s' u ∧
      (∀ q, 2 ≤ q → u.procs q = none) ∧ observe s s' u = true := by
  obtain ⟨s, first, executed⟩ := Option.bind_eq_some_iff.1 executed
  obtain ⟨s', middle, executed⟩ := Option.bind_eq_some_iff.1 executed
  obtain ⟨u, second, observed⟩ := Option.map_eq_some_iff.1 executed
  obtain ⟨runs, unused⟩ := Machine.Runs.of_run_below (fun s a _ => allowed s a)
    (fun q request member => starts q request (List.mem_append_left after member)) (fun _ _ => rfl) first
  obtain ⟨permitted, stepped⟩ := Machine.run_singleton middle
  have unused' : ∀ q, 2 ≤ q → s'.procs q = none :=
    fun q late => Machine.procs_of_step stepped (unused q late) fun _ same => by cases same
  obtain ⟨runs', unused''⟩ := Machine.Runs.of_run_below (fun s a _ => allowed s a)
    (fun q request member => starts q request (List.mem_append_right before member)) unused' second
  exact ⟨s, s', u, runs, allowed s _ permitted, stepped, runs', unused'', observed⟩

def undisturbed : State (machine sample) → Action (machine sample) → Bool
  | _, .abort _ => false
  | _, .start _ (.createAccount _) => false
  | _, _ => true

/-- A retry that has passed the key check before the first call commits finds the account empty. -/
theorem retry_unsafe : ¬RetrySafe sample fun _ a => Undisturbed a := by
  intro safe
  have executed : runAround undisturbed
      (startTransfer 1 "rent" ++ startTransfer 0 "rent" ++ (finishTransfer 0).take 14)
      ((finishTransfer 0).drop 15 ++ (finishTransfer 1).take 4)
      (fun s s' u => Repeats (some (.error (.valueError "Insufficient funds"))) s s' u) = some true := by
    decide +kernel
  obtain ⟨s, s', u, before, allowed, stepped, after, _, observed⟩ := runAround_eq (fun _ a => Undisturbed a)
    (fun s a permitted => ⟨fun p same => by simp [same, undisturbed] at permitted,
      fun p created same => by simp [same, undisturbed] at permitted⟩)
    (fun q request member => by
      simp only [startTransfer, finishTransfer, List.cons_append, List.nil_append,
        List.take_succ_cons, List.take_zero,
        List.drop_succ_cons, List.drop_zero, List.mem_cons, reduceCtorEq, List.not_mem_nil, false_or,
          or_false] at member
      rcases member with same | same <;> cases same <;> decide) executed
  obtain ⟨request, fresh, committed, running, request', result⟩ := of_decide_eq_true observed
  obtain ⟨proc, found, request⟩ := Option.map_eq_some_iff.1 request
  obtain ⟨duplicate, found', request'⟩ := Option.map_eq_some_iff.1 request'
  have returns := (safe bank_opening before allowed stepped found request fresh committed after found' request'
    fun earlier found => running_of_answer running found).returns duplicate found'
  have raised : duplicate.rest = .raise (.valueError "Insufficient funds") := by
    refine answer_eq_error found' ?_
    simp only [outcome] at result
    split at result <;> simp_all
  rw [raised] at returns
  cases returns trivial

/-- Nothing is cut off, no transfer locks the system account, balances are summed only before the
first transfer, and transfers are committed under the key "rent". -/
def sumsFirst : State (machine sample) → Action (machine sample) → Bool
  | _, .abort _ => false
  | s, .step p choice =>
    separates s (.step p choice) && match requestOf p s, nextStmt p s with
      | _, some (.sumEntries _) => (s.world : World).db.keys = []
      | some (.createTransfer _ _ _ key), some .commit => key = "rent"
      | _, _ => true
  | s, a => separates s a

theorem covered_of_sumsFirst (s : State (machine sample)) (a : Action (machine sample)) (allowed : sumsFirst s a) :
    Covered s a := by
  refine ⟨separate_of_separates s a ?_, fun p same => ?_, fun p x y amount key commits => ?_,
    fun p choice x y amount key same _ next keyed => ?_⟩
  · cases a with
    | abort p => cases allowed
    | step p choice =>
      simp only [sumsFirst, Bool.and_eq_true] at allowed
      exact allowed.1
    | _ => exact allowed
  · subst same
    cases allowed
  · obtain ⟨⟨choice, rfl⟩, asked, next⟩ := commits
    simp only [sumsFirst, asked, next, Bool.and_eq_true, decide_eq_true_eq] at allowed
    rw [allowed.2]
    decide +kernel
  · subst same
    obtain ⟨t, member, keyed, _⟩ := keyed
    have member : key ∈ s.world.db.keys := List.mem_filterMap.2 ⟨t, member, keyed⟩
    have empty : s.world.db.keys = [] := by
      simp only [sumsFirst, next, Bool.and_eq_true, decide_eq_true_eq] at allowed
      simpa using allowed.2
    rw [empty] at member
    cases member

/-- A retry that starts after the commit has the answer before it, and there are fair runs from there. -/
theorem retry_answered : ∃ s' u : State (machine sample), (machine sample).Runs Covered s' u ∧
    rent ∈ s'.world.db.transactions ∧ outcome 1 u = none ∧ (machine sample).HasFair Covered u ∧
    Returns Covered 1 rent u := by
  have executed : runAround sumsFirst (startTransfer 0 "rent" ++ (finishTransfer 0).take 14)
      [.start 1 (.createTransfer 2 3 hundred "rent")] (fun s s' u => Repeats none s s' u &&
        ((machine sample).run sumsFirst u ((finishTransfer 0).drop 15 ++ [.step 1 .proceed])).map
          (fun v => ((answer 0 v).isSome, (answer 1 v).isSome, (v.procs 1).isSome)) =
            some (true, true, true)) = some true := by
    decide +kernel
  obtain ⟨s, s', u, before, allowed, stepped, after, unused, observed⟩ :=
    runAround_eq Covered covered_of_sumsFirst (fun q request member => by
      simp only [startTransfer, finishTransfer, List.cons_append, List.nil_append,
        List.take_succ_cons, List.take_zero,
        List.mem_cons, reduceCtorEq, List.not_mem_nil, false_or, or_false] at member
      rcases member with same | same <;> cases same <;> decide) executed
  simp only [Bool.and_eq_true, decide_eq_true_eq] at observed
  obtain ⟨⟨request, fresh, committed, running, request', result⟩, rest⟩ := observed
  obtain ⟨v, reached, answered⟩ := Option.map_eq_some_iff.1 rest
  obtain ⟨onwards, unused'⟩ := Machine.Runs.of_run_below (fun s a _ => covered_of_sumsFirst s a)
    (fun q request member => by simp [finishTransfer] at member) unused reached
  obtain ⟨first, second, asked⟩ : (answer 0 v).isSome ∧ (answer 1 v).isSome ∧ (v.procs 1).isSome := by
    simpa only [Prod.mk.injEq] using answered
  have finished : ∀ q proc, v.procs q = some proc → proc.rest.Finished := by
    intro q proc found
    by_cases late : 2 ≤ q
    · cases found.symm.trans (unused' q late)
    · obtain rfl | rfl : q = 0 ∨ q = 1 := by omega
      · exact finished_of_answer first found
      · exact finished_of_answer second found
  have closes : ∀ (s : State (machine sample)) p, Covered s (.close p) := by
    intro s p
    exact covered_of_sumsFirst s _ rfl
  refine ⟨s', u, after, committed, result, ?_, ?_⟩
  · exact (Machine.HasFair.of_finished closes unused' asked finished).of_runs onwards
  · obtain ⟨proc, found, request⟩ := Option.map_eq_some_iff.1 request
    obtain ⟨duplicate, found', request'⟩ := Option.map_eq_some_iff.1 request'
    exact retry_safe sample bank_opening before allowed stepped found request fresh committed after found' request'
      fun earlier found => running_of_answer running found

end LedgerFlow.Ledger
