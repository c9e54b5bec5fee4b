import LedgerFlow.Ledger.Runs

/-! Idempotent transfers: one transaction for a key, and the answer of every call with that key. -/

namespace LedgerFlow.Ledger
open Accounts Outbox Concurrency

variable {env : Deployment} {db : Tables} {request : Request} {w : World} {s : State (machine env)}

theorem Amount.ext {a b : Amount} (same : a.value = b.value) : a = b := by
  cases a
  cases b
  cases same
  rfl

/-- Without collisions the hash tells the requests apart. -/
theorem generateTransferHash_injective (injective : Function.Injective env.sha256) {a b a' b' : UUID}
    {amount amount' : Decimal} (same : generateTransferHash env a b amount = generateTransferHash env a' b' amount') :
    a = a' ∧ b = b' ∧ amount = amount' := by
  have texts := congrArg String.toList (injective same)
  simp only [String.toList_append, List.append_assoc] at texts
  obtain ⟨first, texts⟩ := List.append_inj texts (by rw [UUID.length_str, UUID.length_str])
  obtain ⟨_, texts⟩ := List.append_inj texts rfl
  obtain ⟨second, texts⟩ := List.append_inj texts (by rw [UUID.length_str, UUID.length_str])
  obtain ⟨_, third⟩ := List.append_inj texts rfl
  exact ⟨UUID.str_injective (String.toList_inj.1 first), UUID.str_injective (String.toList_inj.1 second),
    Decimal.str_injective (String.toList_inj.1 third)⟩

/-- The entries of a transaction are the debit and the credit that these arguments post. -/
def Tables.Moves (env : Deployment) (db : Tables) (transaction : Transaction) (fromAccountId toAccountId : UUID)
    (amount : Amount) : Prop :=
  ∃ debit credit, Stores env amount.value debit credit ∧ db.entriesOf transaction.transactionId =
    [⟨transaction.transactionId, fromAccountId, debit⟩, ⟨transaction.transactionId, toAccountId, credit⟩]

/-- Every transaction with an idempotency key is the transfer its hash was made from. -/
def Tables.Keyed (env : Deployment) (db : Tables) : Prop :=
  ∀ transaction ∈ db.transactions, transaction.idempotencyKey ≠ none → ∃ fromAccountId toAccountId amount,
    transaction.requestHash = some (generateTransferHash env fromAccountId toAccountId amount.value) ∧
    db.Moves env transaction fromAccountId toAccountId amount

theorem PostedBy.keyed {a b : UUID} {amount : Amount} {key : String} {P : Posting}
    (posted : PostedBy env db (.createTransfer a b amount key) P) :
    P.transaction.idempotencyKey = varchar 255 key := by
  cases posted with
  | transfer _ _ _ _ _ _ _ _ _ _ _ _ _ _ _ _ _ _ keyed => exact keyed

theorem PostedBy.hashed {a b : UUID} {amount : Amount} {key : String} {P : Posting}
    (posted : PostedBy env db (.createTransfer a b amount key) P) :
    P.transaction.requestHash = some (generateTransferHash env a b amount.value) := by
  cases posted with
  | transfer _ _ _ _ _ _ _ _ _ _ _ _ _ _ _ _ _ _ _ hashed => exact hashed

theorem Commits.keyed {rows : Tables} (commits : Commits env db request rows) (consistent : db.Consistent)
    (keyed : db.Keyed env) : (db ++ rows).Keyed env := by
  intro transaction member key
  rcases List.mem_append.1 member with old | new
  · obtain ⟨a, b, amount, hashed, moves⟩ := keyed transaction old key
    refine ⟨a, b, amount, hashed, ?_⟩
    rwa [Tables.Moves, commits.entriesOf old]
  · cases commits with
    | opens => cases new
    | posts P posted fresh =>
      cases List.mem_singleton.1 new
      have entries := consistent.entriesOf_posting fresh
      cases posted with
      | deposit _ _ _ _ _ _ _ _ _ _ _ _ _ keyless => exact absurd keyless key
      | withdrawal _ _ _ _ _ _ _ _ _ _ _ _ _ _ keyless => exact absurd keyless key
      | transfer source destination amount _ _ debit credit _ _ _ _ _ _ _ _ _ _ _ _ hashed stored =>
        exact ⟨_, _, amount, hashed, debit, credit, stored, entries⟩

def Returned (s : State (machine env)) : Prop :=
  ∀ p proc a b amount key value, s.procs p = some proc → proc.request = .createTransfer a b amount key →
    proc.rest = .ret value → ∃ transaction kept, value = .transfer transaction ∧
      transaction ∈ s.world.db.transactions ∧ transaction.idempotencyKey = some kept ∧
        varchar 255 key = some kept ∧
      transaction.requestHash = some (generateTransferHash env a b amount.value)

theorem returned_of_runs {ok : State (machine env) → Action (machine env) → Prop} (opening : w.Opening)
    (runs : (machine env).Runs ok ((machine env).initial w) s) : Returned s := by
  intro p proc a b amount key value found same returned
  obtain ⟨u, reached, later, outcome⟩ :=
    outcome_of_runs (fun _ => True) (fun _ _ _ _ => trivial) opening runs found returned
  obtain ⟨rows, grown⟩ := grows_of_runs opening reached later
  rw [same] at outcome
  cases outcome with
  | transferred _ _ _ _ transaction kept member keyed keeps hashed =>
    exact ⟨transaction, kept, rfl, grown ▸ List.mem_append_left _ member, keyed, keeps, hashed⟩

/-- One transaction at most carries a key, and every call that has returned normally has returned the committed one
that carries what is `kept` of its key, and that moved what the call itself asks for. -/
structure MovedOnce (kept : String → Option String) (s : State (machine env)) : Prop where
  unique : ∀ t ∈ s.world.db.transactions, ∀ t' ∈ s.world.db.transactions, ∀ key,
    t.idempotencyKey = some key → t'.idempotencyKey = some key → t = t'
  returned : ∀ p proc a b amount key value, s.procs p = some proc →
    proc.request = .createTransfer a b amount key →
    proc.rest = .ret value → ∃ t ∈ s.world.db.transactions, ∃ carried, value = .transfer t ∧
      t.idempotencyKey = some carried ∧ kept key = some carried ∧ s.world.db.Moves env t a b amount

theorem MovedOnce.agree {kept : String → Option String} (moved : MovedOnce kept s) {p q : ℕ}
    {proc proc' : Proc (machine env)} {a b a' b' : UUID} {amount amount' : Amount} {key : String}
    {value value' : Value}
    (found : s.procs p = some proc) (found' : s.procs q = some proc')
    (asked : proc.request = .createTransfer a b amount key)
    (asked' : proc'.request = .createTransfer a' b' amount' key) (returned : proc.rest = .ret value)
    (returned' : proc'.rest = .ret value') : value = value' := by
  obtain ⟨t, member, carried, rfl, keyed, keeps, _⟩ :=
    moved.returned p proc a b amount key value found asked returned
  obtain ⟨t', member', carried', rfl, keyed', keeps', _⟩ :=
    moved.returned q proc' a' b' amount' key value' found' asked' returned'
  obtain rfl := Option.some.inj (keeps.symm.trans keeps')
  rw [moved.unique t member t' member' carried keyed keyed']

/-- In every run each transfer is posted once at most, under its key as the column keeps it. -/
theorem moved_once (injective : Function.Injective env.sha256) (opening : w.Opening) (keyed : w.db.Keyed env)
    (runs : (machine env).Runs (machine env).anything ((machine env).initial w) s) : MovedOnce (varchar 255) s := by
  have consistent := consistent_of_runs opening runs
  have kept := kept_of_runs opening keyed
    (fun _ _ _ _ _ _ _ commits consistent keyed => commits.keyed consistent keyed) runs
  refine ⟨fun t member t' member' key same same' => consistent.key_unique member member' same same', ?_⟩
  intro p proc a b amount key value found same returned
  obtain ⟨t, carried, equal, member, carries, keeps, hashed⟩ :=
    returned_of_runs opening runs p proc a b amount key value found same returned
  obtain ⟨a', b', amount', hashed', moves⟩ := kept t member (by simp [carries])
  obtain ⟨rfl, rfl, value'⟩ := generateTransferHash_injective injective
    (Option.some.inj (hashed.symm.trans hashed'))
  exact ⟨t, member, carried, equal, carries, keeps, Amount.ext value' ▸ moves⟩

/-- Alice's transfer of 100.00 to Bob by process `p`, with the statements before and after its row locks. -/
def startTransfer (p : ℕ) (key : String) : List (Action (machine sample)) :=
  [.start p (.createTransfer 2 3 hundred key), .step p .proceed]

def finishTransfer (p : ℕ) : List (Action (machine sample)) :=
  [.step p .proceed, .step p .proceed, .step p .proceed, .step p .proceed, .step p .proceed, .step p (.uuid 10),
    .step p .proceed, .step p .proceed, .step p .proceed, .step p .proceed, .step p (.uuid 11), .step p .proceed,
    .step p .proceed, .step p .proceed, .step p .proceed, .step p .proceed, .step p .proceed, .step p .proceed]

def rent : Transaction := ⟨10, .transfer, .posted, some "Transfer", some "rent",
  some "6d645be5c118517f5d77cd5d22c8407e2453ef6dddb79bc011b4802b78eb2ced", 0⟩

def outcome (p : ℕ) (s : State (machine sample)) : Option (Except PyError UUID) :=
  match answer p s with
  | some (.ok (.transfer transaction)) => some (.ok transaction.transactionId)
  | some (.error error) => some (.error error)
  | _ => none

theorem sampleDigest_injective : Function.Injective sampleDigest := by
  have marked : ∀ text, ("digest of " ++ text).toList ≠
      "6d645be5c118517f5d77cd5d22c8407e2453ef6dddb79bc011b4802b78eb2ced".toList := by
    intro text same
    have heads := congrArg List.head? same
    rw [String.toList_append, List.head?_append, show "digest of ".toList.head? = some 'd' by decide,
      Option.some_or] at heads
    exact absurd heads (by decide)
  intro a b same
  simp only [sampleDigest] at same
  split_ifs at same with left right right
  · exact left.trans right.symm
  · exact absurd (congrArg String.toList same.symm) (marked b)
  · exact absurd (congrArg String.toList same) (marked a)
  · simpa using same

theorem bank_keyed : bank.db.Keyed sample := by
  simp [Tables.Keyed, bank, savings, Posting.rows]

theorem transfer_moved_once : ∃ s, (machine sample).Runs (machine sample).anything
    ((machine sample).initial bank) s ∧ outcome 0 s = some (.ok 10) ∧ MovedOnce (varchar 255) s := by
  have executed : ((machine sample).run (fun _ _ => true) ((machine sample).initial bank)
      (startTransfer 0 "rent" ++ finishTransfer 0)).map (outcome 0) = some (some (.ok 10)) := by
    decide +kernel
  obtain ⟨s, runs, observed⟩ := Machine.Runs.of_observed _ (fun _ _ _ => trivial) executed
  exact ⟨s, runs, observed, moved_once sampleDigest_injective bank_opening bank_keyed runs⟩

def blankedKey : String := String.ofList (List.replicate 255 'k' ++ [' '])

def returnedKey (p : ℕ) (s : State (machine sample)) : Option String :=
  match answer p s with
  | some (.ok (.transfer transaction)) => transaction.idempotencyKey
  | _ => none

/-- The column cuts the blank off, so that the call returns a transaction which does not carry the key of the call. -/
theorem not_moved_once : ¬∀ s : State (machine sample),
    (machine sample).Runs (machine sample).anything ((machine sample).initial bank) s → MovedOnce some s := by
  intro moved
  have executed : ((machine sample).run (fun _ _ => true) ((machine sample).initial bank)
      (startTransfer 0 blankedKey ++ finishTransfer 0)).map (fun s => (requestOf 0 s, returnedKey 0 s)) =
        some (some (.createTransfer 2 3 hundred blankedKey), some (String.ofList (List.replicate 255 'k'))) := by
    decide +kernel
  obtain ⟨s, runs, observed⟩ := Machine.Runs.of_observed _ (fun _ _ _ => trivial) executed
  obtain ⟨asked, carries⟩ := Prod.mk.inj observed
  obtain ⟨proc, found, asked⟩ := Option.map_eq_some_iff.1 asked
  unfold returnedKey at carries
  split at carries
  · rename_i transaction answered
    obtain ⟨t, _, carried, same, keyed, keeps, _⟩ :=
      (moved s runs).returned 0 proc 2 3 hundred blankedKey _ found asked (answer_eq_ok found answered)
    cases same
    have whole : some blankedKey = some (String.ofList (List.replicate 255 'k')) := by
      rw [keeps, ← keyed, carries]
    exact absurd (congrArg (Option.map String.length) whole) (by decide +kernel)
  · cases carries

end LedgerFlow.Ledger
