import LedgerFlow.Ledger.Posting

/-! What concurrent sessions leave alone. `Valid` holds of every reachable database, `Rely` says what a
session may count on while others run, `View` is what it knows. -/

namespace LedgerFlow.Ledger
open Accounts Outbox

namespace World

structure Valid (w : World) : Prop where
  exclusive : ∀ {x p q}, (p, LockMode.forUpdate) ∈ w.rowLocks x →
      (q, LockMode.forUpdate) ∈ w.rowLocks x → p = q
  keyHeld : ∀ {key p}, w.keyLocks key = some p → key ∉ w.db.keys
  keyPending : ∀ {key p}, w.keyLocks key = some p → key ∈ (w.sessions p).writes.keys
  issuedOnce : (w.issued.map (·.2)).Nodup
  consistent : w.db.Consistent

/-- What session `p` may count on while others run. -/
structure Rely (permit : Request → Prop) (p : ℕ) (w w' : World) : Prop where
  session : w'.sessions p = w.sessions p
  rowLocks : ∀ {x mode}, (p, mode) ∈ w.rowLocks x → (p, mode) ∈ w'.rowLocks x
  keyLocks : ∀ {key}, w.keyLocks key = some p → w'.keyLocks key = some p
  grows : ∃ rows, w'.db = w.db ++ rows
  funds : ∀ {x}, (p, LockMode.forUpdate) ∈ w.rowLocks x → ¬w'.db.IsSystemCash x →
      w.db.balance x ≤ w'.db.balance x
  issued : ∀ {id}, (p, id) ∈ w.issued → (p, id) ∈ w'.issued
  ids : ∀ {id}, (p, id) ∈ w.issued → id ∈ w'.db.ids → id ∈ w.db.ids
  accounts : (∀ created, ¬permit (.createAccount created)) → w'.db.accounts = w.db.accounts

variable {permit : Request → Prop} {p q : ℕ} {w w₁ w₂ w₃ : World}

theorem Rely.refl (p : ℕ) (w : World) : Rely permit p w w :=
  ⟨rfl, id, id, ⟨{}, by simp⟩, fun _ _ => le_rfl, id, fun _ => id, fun _ => rfl⟩

theorem Rely.trans (first : Rely permit p w₁ w₂) (second : Rely permit p w₂ w₃) :
    Rely permit p w₁ w₃ where
  session := second.session.trans first.session
  rowLocks := second.rowLocks ∘ first.rowLocks
  keyLocks := second.keyLocks ∘ first.keyLocks
  grows := by
    obtain ⟨rows, same⟩ := first.grows
    obtain ⟨rows', same'⟩ := second.grows
    exact ⟨rows ++ rows', by rw [same', same, Tables.append_assoc]⟩
  funds locked other := by
    obtain ⟨rows, same⟩ := second.grows
    refine (first.funds locked fun cash => other ?_).trans (second.funds (first.rowLocks locked) other)
    exact same ▸ cash.append
  issued := second.issued ∘ first.issued
  ids own member := first.ids own (second.ids (first.issued own) member)
  accounts static := (second.accounts static).trans (first.accounts static)

theorem Rely.frame {w' : World} (db : w'.db = w.db) (session : w'.sessions q = w.sessions q)
    (rowLocks : ∀ {x mode}, (q, mode) ∈ w.rowLocks x → (q, mode) ∈ w'.rowLocks x)
    (keyLocks : ∀ {key}, w.keyLocks key = some q → w'.keyLocks key = some q)
    (issued : ∀ {id}, (q, id) ∈ w.issued → (q, id) ∈ w'.issued) : Rely permit q w w' :=
  ⟨session, rowLocks, keyLocks, ⟨{}, by simp [db]⟩,
    fun _ _ => by rw [db], issued, fun _ member => db ▸ member, fun _ => by rw [db]⟩

theorem Valid.finish (valid : Valid w) (p : ℕ) : Valid (w.finish p) where
  exclusive held held' := valid.exclusive (List.mem_filter.1 held).1 (List.mem_filter.1 held').1
  keyHeld held := by
    simp only [World.finish] at held
    split_ifs at held
    exact valid.keyHeld held
  keyPending {key q} held := by
    simp only [World.finish] at held ⊢
    split_ifs at held with mine
    have other : q ≠ p := fun same => mine (same ▸ held)
    rw [Function.update_of_ne other]
    exact valid.keyPending held
  issuedOnce := valid.issuedOnce
  consistent := valid.consistent

theorem Rely.finish (other : q ≠ p) : Rely permit q w (w.finish p) := by
  refine .frame rfl (Function.update_of_ne other _ _) (fun held => ?_) (fun held => ?_) id
  · exact List.mem_filter.2 ⟨held, by simp [other]⟩
  · simp [World.finish, held, other]

end World

open World

/-- What a session knows: its own rows and the savepoint's, accounts and transactions it has found
committed, the rows it has locked with the sums it has read under the locks, the identifiers it was given and the
keys it has inserted. -/
structure View where
  writes : Tables := {}
  saved : Option Tables := none
  known : List Account := []
  directory : Option (List Account) := none
  found : List Transaction := []
  locked : List UUID := []
  funded : List (UUID × ℤ) := []
  ids : List UUID := []
  keys : List String := []

structure View.Holds (permit : Request → Prop) (p : ℕ) (v : View) (w : World) : Prop where
  session : w.sessions p = ⟨v.writes, v.saved⟩
  known : ∀ account ∈ v.known, account ∈ w.db.accounts
  directory : ∀ accounts, v.directory = some accounts → (∀ created, ¬permit (.createAccount created)) →
    w.db.accounts = accounts
  found : ∀ transaction ∈ v.found, transaction ∈ w.db.transactions
  locked : ∀ x ∈ v.locked, (p, LockMode.forUpdate) ∈ w.rowLocks x
  funded : ∀ entry ∈ v.funded, entry.1 ∈ v.locked ∧ w.db.Funded entry.1 entry.2
  ids : ∀ id ∈ v.ids, (p, id) ∈ w.issued ∧ id ∉ w.db.ids
  keys : ∀ key ∈ v.keys, w.keyLocks key = some p

namespace View
variable {permit : Request → Prop} {p : ℕ} {v : View} {w w' : World}

theorem Holds.rely (holds : v.Holds permit p w) (others : Rely permit p w w') : v.Holds permit p w' where
  session := others.session.trans holds.session
  known account member := by
    obtain ⟨rows, same⟩ := others.grows
    exact same ▸ List.mem_append_left _ (holds.known account member)
  directory accounts listed static := (others.accounts static).trans (holds.directory accounts listed static)
  found transaction member := by
    obtain ⟨rows, same⟩ := others.grows
    exact same ▸ List.mem_append_left _ (holds.found transaction member)
  locked x member := others.rowLocks (holds.locked x member)
  funded entry member := by
    obtain ⟨locked, funded⟩ := holds.funded entry member
    refine ⟨locked, ?_⟩
    by_cases cash : w'.db.IsSystemCash entry.1
    · exact .inl cash
    · obtain ⟨rows, same⟩ := others.grows
      have enough := funded.resolve_left fun before => cash (same ▸ before.append)
      exact .inr (enough.trans (others.funds (holds.locked _ locked) cash))
  ids id member := by
    obtain ⟨own, fresh⟩ := holds.ids id member
    exact ⟨others.issued own, fun taken => fresh (others.ids own taken)⟩
  keys key member := others.keyLocks (holds.keys key member)

theorem Holds.visible (holds : v.Holds permit p w) (blank : v.writes = {}) : w.visible p = w.db := by
  simp [World.visible, holds.session, blank]

theorem Holds.know (holds : v.Holds permit p w) (accounts : List Account)
    (members : ∀ account ∈ accounts, account ∈ w.db.accounts) :
    View.Holds permit p { v with known := accounts ++ v.known } w :=
  { holds with known := fun account member =>
    (List.mem_append.1 member).elim (members account) (holds.known account) }

theorem Holds.idle (session : w.sessions p = {}) : View.Holds permit p {} w where
  session := session
  known _ member := absurd member List.not_mem_nil
  directory _ listed := by cases listed
  found _ member := absurd member List.not_mem_nil
  locked _ member := absurd member List.not_mem_nil
  funded _ member := absurd member List.not_mem_nil
  ids _ member := absurd member List.not_mem_nil
  keys _ member := absurd member List.not_mem_nil

end View

/-- After an own statement the invariant holds, the others were left alone and the view `v` is right. -/
structure Respects (permit : Request → Prop) (p : ℕ) (v : View) (w w' : World) : Prop where
  valid : Valid w'
  others : ∀ q, q ≠ p → Rely permit q w w'
  holds : v.Holds permit p w'

structure Quiet (permit : Request → Prop) (p : ℕ) (v : View) (w w' : World) : Prop extends
    Respects permit p v w w' where
  db : w'.db = w.db

namespace Quiet
variable {permit : Request → Prop} {p : ℕ} {v : View} {w : World}

theorem refl (valid : Valid w) (holds : v.Holds permit p w) : Quiet permit p v w w :=
  ⟨⟨valid, fun q _ => .refl q w, holds⟩, rfl⟩

theorem trans {v' : View} {w₁ w₂ : World} (first : Quiet permit p v w w₁)
    (second : Quiet permit p v' w₁ w₂) : Quiet permit p v' w w₂ :=
  ⟨⟨second.valid, fun q other => (first.others q other).trans (second.others q other), second.holds⟩,
    second.db.trans first.db⟩

theorem redis (valid : Valid w) (holds : v.Holds permit p w) (cache : String → Option String) :
    Quiet permit p v w { w with redis := cache } where
  valid := ⟨valid.exclusive, valid.keyHeld, valid.keyPending, valid.issuedOnce, valid.consistent⟩
  others _ _ := .frame rfl rfl id id id
  holds := ⟨holds.session, holds.known, holds.directory, holds.found, holds.locked, holds.funded,
      holds.ids, holds.keys⟩
  db := rfl

theorem setSession (valid : Valid w) (holds : v.Holds permit p w) (writes : Tables) (saved : Option Tables)
    (kept : ∀ key ∈ v.writes.keys, key ∈ writes.keys) :
    Quiet permit p { v with writes := writes, saved := saved } w (w.setSession p ⟨writes, saved⟩) where
  valid := by
    refine ⟨valid.exclusive, valid.keyHeld, fun {key q} held => ?_, valid.issuedOnce, valid.consistent⟩
    have pending := valid.keyPending held
    by_cases same : q = p
    · subst same
      rw [holds.session] at pending
      simpa [World.setSession] using kept key pending
    · simpa [World.setSession, same] using pending
  others _ other := .frame rfl (Function.update_of_ne other _ _) id id id
  holds := ⟨Function.update_self .., holds.known, holds.directory, holds.found, holds.locked,
    holds.funded, holds.ids, holds.keys⟩
  db := rfl

theorem write (valid : Valid w) (holds : v.Holds permit p w) (rows : Tables) :
    Quiet permit p { v with writes := v.writes ++ rows } w (w.write p rows) := by
  have written := setSession valid holds (v.writes ++ rows) v.saved fun key member => by
    rw [Tables.keys_append]
    exact List.mem_append_left _ member
  have same : w.setSession p ⟨v.writes ++ rows, v.saved⟩ = w.write p rows := by
    rw [World.write, holds.session]
  rwa [same] at written

theorem keyShare (valid : Valid w) (holds : v.Holds permit p w) (x : UUID) :
    Quiet permit p v w (w.lock p x .keyShare) where
  valid := by
    refine ⟨fun held held' => ?_, valid.keyHeld, valid.keyPending, valid.issuedOnce, valid.consistent⟩
    -- the new holder has another mode
    have before {y r} (held : (r, LockMode.forUpdate) ∈ (w.lock p x .keyShare).rowLocks y) :
        (r, LockMode.forUpdate) ∈ w.rowLocks y := by
      simpa [World.mem_rowLocks_lock] using held
    exact valid.exclusive (before held) (before held')
  others _ _ := .frame rfl rfl (fun held => World.mem_rowLocks_lock.2 (.inr held)) id id
  holds := by
    refine ⟨holds.session, holds.known, holds.directory, holds.found, fun y member => ?_, holds.funded,
      holds.ids, holds.keys⟩
    exact World.mem_rowLocks_lock.2 (.inr (holds.locked y member))
  db := rfl

theorem forUpdate (valid : Valid w) (holds : v.Holds permit p w) {x : UUID}
    (granted : ∀ holder ∈ w.rowLocks x, holder.1 = p) :
    Quiet permit p { v with locked := x :: v.locked } w (w.lock p x .forUpdate) where
  valid := by
    refine ⟨fun {y q r} held held' => ?_, valid.keyHeld, valid.keyPending, valid.issuedOnce, valid.consistent⟩
    rcases World.mem_rowLocks_lock.1 held with ⟨rfl, mine⟩ | before
    · cases mine
      rcases World.mem_rowLocks_lock.1 held' with ⟨-, mine⟩ | before'
      · cases mine
        rfl
      · exact (granted _ before').symm
    · rcases World.mem_rowLocks_lock.1 held' with ⟨rfl, mine⟩ | before'
      · cases mine
        exact granted _ before
      · exact valid.exclusive before before'
  others _ _ := .frame rfl rfl (fun held => World.mem_rowLocks_lock.2 (.inr held)) id id
  holds := by
    refine ⟨holds.session, holds.known, holds.directory, holds.found, fun y member => ?_,
      fun entry member => ?_, holds.ids, holds.keys⟩
    · rcases List.mem_cons.1 member with rfl | earlier
      · exact World.mem_rowLocks_lock.2 (.inl ⟨rfl, rfl⟩)
      · exact World.mem_rowLocks_lock.2 (.inr (holds.locked y earlier))
    · obtain ⟨locked, funded⟩ := holds.funded entry member
      exact ⟨List.mem_cons_of_mem _ locked, funded⟩
  db := rfl

theorem holdKey (valid : Valid w) (holds : v.Holds permit p w) (key : String) (free : w.keyLocks key = none)
    (unused : key ∉ w.db.keys) (pending : key ∈ v.writes.keys) :
    Quiet permit p { v with keys := key :: v.keys } w (w.holdKey p key) where
  valid := by
    refine ⟨valid.exclusive, fun {other q} held => ?_, fun {other q} held => ?_, valid.issuedOnce,
      valid.consistent⟩
    · rcases World.keyLocks_holdKey.1 held with ⟨rfl, -⟩ | ⟨-, held⟩
      · exact unused
      · exact valid.keyHeld held
    · rcases World.keyLocks_holdKey.1 held with ⟨rfl, rfl⟩ | ⟨-, held⟩
      · simpa [World.holdKey, holds.session] using pending
      · exact valid.keyPending held
  others _ _ := .frame rfl rfl id (fun {other} held => by
    refine World.keyLocks_holdKey.2 (.inr ⟨fun same => ?_, held⟩)
    rw [same, free] at held
    cases held) id
  holds := by
    refine ⟨holds.session, holds.known, holds.directory, holds.found, holds.locked, holds.funded, holds.ids,
      fun other member => ?_⟩
    by_cases same : other = key
    · exact World.keyLocks_holdKey.2 (.inl ⟨same, rfl⟩)
    · exact World.keyLocks_holdKey.2 (.inr ⟨same, holds.keys other ((List.mem_cons.1 member).resolve_left same)⟩)
  db := rfl

theorem issue (valid : Valid w) (holds : v.Holds permit p w) {value : UUID} (unissued : value ∉ w.issued.map (·.2))
    (unused : value ∉ w.db.ids) :
    Quiet permit p { v with ids := value :: v.ids } w { w with issued := (p, value) :: w.issued } where
  valid := ⟨valid.exclusive, valid.keyHeld, valid.keyPending,
      List.nodup_cons.2 ⟨unissued, valid.issuedOnce⟩, valid.consistent⟩
  others _ _ := .frame rfl rfl id id (List.mem_cons_of_mem _)
  holds := by
    refine ⟨holds.session, holds.known, holds.directory, holds.found, holds.locked, holds.funded,
      fun other member => ?_, holds.keys⟩
    rcases List.mem_cons.1 member with rfl | member
    · exact ⟨List.mem_cons_self, unused⟩
    · exact ⟨List.mem_cons_of_mem _ (holds.ids other member).1, (holds.ids other member).2⟩
  db := rfl

theorem rollbackToSavepoint (valid : Valid w) (holds : v.Holds permit p w) :
    Quiet permit p { v with writes := v.saved.getD {}, saved := none, keys := [] } w (w.rollbackToSavepoint p) where
  valid := by
    refine ⟨fun {y q r} held held' => ?_, fun {key q} held => ?_, fun {key q} held => ?_, valid.issuedOnce,
      valid.consistent⟩
    · exact valid.exclusive (List.mem_filter.1 held).1 (List.mem_filter.1 held').1
    · simp only [World.rollbackToSavepoint] at held
      split_ifs at held
      exact valid.keyHeld held
    · simp only [World.rollbackToSavepoint] at held ⊢
      split_ifs at held with gone
      by_cases same : q = p
      · subst same
        simpa [held] using gone
      · simpa [same] using valid.keyPending held
  others q other := by
    refine .frame rfl (Function.update_of_ne other _ _) (fun held => ?_) (fun held => ?_) id
    · exact List.mem_filter.2 ⟨held, by simp [other]⟩
    · simp [World.rollbackToSavepoint, held, other]
  holds := by
    refine ⟨by simp [World.rollbackToSavepoint, holds.session], holds.known, holds.directory, holds.found,
      fun y member => ?_, holds.funded, holds.ids, fun _ member => absurd member List.not_mem_nil⟩
    exact List.mem_filter.2 ⟨holds.locked y member, by simp⟩
  db := rfl

theorem finish (valid : Valid w) (holds : v.Holds permit p w) :
    Quiet permit p { known := v.known, directory := v.directory, found := v.found } w (w.finish p) where
  valid := valid.finish p
  others _ other := .finish other
  holds := ⟨by simp [World.finish], holds.known, holds.directory, holds.found,
    fun _ member => absurd member List.not_mem_nil, fun _ member => absurd member List.not_mem_nil,
    fun _ member => absurd member List.not_mem_nil, fun _ member => absurd member List.not_mem_nil⟩
  db := rfl

end Quiet

structure View.Ready (v : View) (db : Tables) : Prop where
  ids : ∀ id ∈ v.writes.ids, id ∈ v.ids
  keys : ∀ key ∈ v.writes.keys, key ∈ v.keys
  debits : ∀ x, v.writes.balance x < 0 → db.IsSystemCash x ∨ x ∈ v.locked

namespace Respects
variable {env : Deployment} {permit : Request → Prop} {request : Request} {p : ℕ} {v : View} {w : World}

theorem commit (valid : Valid w) (holds : v.Holds permit p w) (admitted : permit request) (ready : v.Ready w.db)
    (commits : Commits env w.db request v.writes) :
    Respects permit p { known := v.known ++ v.writes.accounts, found := v.found ++ v.writes.transactions } w
      (w.commit p) := by
  have grown : (w.commit p).db = w.db ++ v.writes := by simp [World.commit, World.finish, holds.session]
  refine ⟨⟨fun held held' => ?_, fun {key q} held => ?_, (Valid.finish valid p).keyPending,
    valid.issuedOnce, ?_⟩, fun q other => ?_, ?_⟩
  · exact valid.exclusive (List.mem_filter.1 held).1 (List.mem_filter.1 held').1
  · simp only [World.commit, World.finish] at held
    split_ifs at held with mine
    rw [grown, Tables.keys_append, List.mem_append, not_or]
    refine ⟨valid.keyHeld held, fun new => mine ?_⟩
    exact holds.keys key (ready.keys key new)
  · exact grown ▸ commits.consistent valid.consistent
  · refine ⟨Function.update_of_ne other _ _, fun held =>
      List.mem_filter.2 ⟨held, by simp [other]⟩, fun held => ?_,
      ⟨v.writes, grown⟩, fun {x} locked user => ?_, id, fun {value} own member => ?_, fun static => ?_⟩
    · simp [World.commit, World.finish, held, other]
    · rw [grown] at user ⊢
      have nonneg : ¬v.writes.balance x < 0 := fun debited => by
        rcases ready.debits x debited with cash | held
        · exact user cash.append
        · exact other (valid.exclusive locked (holds.locked x held))
      rw [Tables.balance_append]
      omega
    · rw [grown, Tables.mem_ids_append] at member
      refine member.resolve_right fun new => other ?_
      have mine := (holds.ids value (ready.ids value new)).1
      exact congrArg Prod.fst (List.inj_on_of_nodup_map valid.issuedOnce own mine rfl)
    · have none := commits.no_account fun created same => static created (same ▸ admitted)
      rw [grown, Tables.append_accounts, none, List.append_nil]
  · refine ⟨by simp [World.commit, World.finish], fun account member => ?_, (fun _ listed => by cases listed),
      fun transaction member => ?_, fun _ member => absurd member List.not_mem_nil,
      fun _ member => absurd member List.not_mem_nil, fun _ member => absurd member List.not_mem_nil,
      fun _ member => absurd member List.not_mem_nil⟩
    · rw [grown]
      rcases List.mem_append.1 member with old | new
      · exact List.mem_append_left _ (holds.known account old)
      · exact List.mem_append_right _ new
    · rw [grown]
      rcases List.mem_append.1 member with old | new
      · exact List.mem_append_left _ (holds.found transaction old)
      · exact List.mem_append_right _ new

end Respects
end LedgerFlow.Ledger
