import LedgerFlow.Concurrency.RelyGuarantee
import LedgerFlow.Consumers.Deltas
import LedgerFlow.Outbox.Publication
import Mathlib.Algebra.BigOperators.Group.Finset.Basic

/-! Exactly-once projection: a commit of the consumer registers a new event and adds its
deltas, or changes nothing. -/

namespace LedgerFlow.Consumers
open Concurrency

def registered (w : World) : Finset UUID := w.processed.rows.keys.toFinset

/-- The committed projected balance, in cents; no row means 0. -/
def projected (accountId : UUID) (w : World) : WithTop ℤ :=
  (w.projections.rows.lookup accountId).elim 0 (·.balance.cents)

/-- The projection is the sum of the deltas of the registered events, each counted once. -/
def Exact (content : UUID → Json) (w : World) : Prop :=
  ∀ accountId, projected accountId w = ∑ eventId ∈ registered w, delta (content eventId) accountId

def eventIdOf (event : Json) : Except PyError UUID := do
  let value ← event.item "event_id"
  value.uuid

theorem eventIdOf_message (event : Outbox.OutboxEvent) : eventIdOf (Outbox.message event) = .ok event.eventId := by
  simp [eventIdOf, Json.uuid_str, bind, Except.bind]

def Delivers (content : UUID → Json) (message : Message) : Prop :=
  ∀ eventId, eventIdOf message.value = .ok eventId → message.value = content eventId

structure World.Opening (w : World) : Prop where
  processed : w.processed.Opening
  projections : w.projections.Opening

structure World.Valid (w : World) : Prop where
  processed : w.processed.Valid
  projections : w.projections.Valid

structure World.Rely (p : ℕ) (w w' : World) : Prop where
  processed : Store.Kept p w.processed w'.processed
  projections : Store.Kept p w.projections w'.projections

structure Registers (eventId : UUID) (event : Json) (w w' : World) : Prop where
  fresh : eventId ∉ registered w
  registered : registered w' = insert eventId (registered w)
  projected : ∀ accountId, projected accountId w' = projected accountId w + delta event accountId
  decoded : ∃ changes, deltas event = .ok changes

/-- What one statement of process `p` does to the world. -/
structure Guar (content : UUID → Json) (p : ℕ) (w w' : World) : Prop where
  valid : w'.Valid
  others : ∀ q, q ≠ p → World.Rely q w w'
  rows : w'.processed.rows = w.processed.rows ∧ w'.projections.rows = w.projections.rows ∨
    ∃ eventId, Registers eventId (content eventId) w w'

def contract (content : UUID → Json) : Contract machine where
  inv := World.Valid
  rely := World.Rely
  guar p _ w _ w' := Guar content p w w'
  post _ _ _ := True

variable {content : UUID → Json} {p : ℕ} {w w' w'' : World}

theorem World.Opening.valid (opening : w.Opening) : w.Valid :=
  ⟨opening.processed.valid, opening.projections.valid⟩

theorem World.Rely.refl (p : ℕ) (w : World) : World.Rely p w w := ⟨.refl p _, .refl p _⟩

theorem World.Rely.trans (first : World.Rely p w w') (second : World.Rely p w' w'') : World.Rely p w w'' :=
  ⟨first.processed.trans second.processed, first.projections.trans second.projections⟩

theorem Registers.exact {eventId : UUID} (registers : Registers eventId (content eventId) w w')
    (exact : Exact content w) : Exact content w' := by
  intro accountId
  rw [registers.registered, Finset.sum_insert registers.fresh, registers.projected, exact, add_comm]

theorem Guar.exact (guar : Guar content p w w') (exact : Exact content w) : Exact content w' := by
  rcases guar.rows with ⟨processed, projections⟩ | ⟨eventId, registers⟩
  · intro accountId
    simpa only [Exact, projected, registered, processed, projections] using exact accountId
  · exact registers.exact exact

theorem Guar.frame (valid : w'.Valid) (others : ∀ q, q ≠ p → World.Rely q w w')
    (processed : w'.processed.rows = w.processed.rows) (projections : w'.projections.rows = w.projections.rows) :
    Guar content p w w' :=
  ⟨valid, others, .inl ⟨processed, projections⟩⟩

theorem Guar.still (valid : w.Valid) (processed : w'.processed = w.processed)
    (projections : w'.projections = w.projections) : Guar content p w w' :=
  .frame ⟨processed ▸ valid.processed, projections ▸ valid.projections⟩
    (fun q _ => ⟨processed ▸ .refl q _, projections ▸ .refl q _⟩) (by rw [processed]) (by rw [projections])

structure Closed (p : ℕ) (w : World) : Prop where
  processed : w.processed.drafts p = ∅
  projections : w.projections.drafts p = ∅

theorem Closed.rely (closed : Closed p w) (others : World.Rely p w w') : Closed p w' :=
  ⟨others.processed.drafts.trans closed.processed, others.projections.drafts.trans closed.projections⟩

/-- Session `p` has drafted the registration of the event and the changes of `made`. -/
structure Working (p : ℕ) (eventId : UUID) (made : List (UUID × Decimal.Number)) (w : World) : Prop where
  draft : ∃ row, w.processed.drafts p = (∅ : AList fun _ : UUID => ProcessedEvent).insert eventId row
  locked : w.processed.locks eventId = some p
  fresh : w.processed.rows.lookup eventId = none
  drafted : ∀ accountId row, (w.projections.drafts p).lookup accountId = some row →
    w.projections.locks accountId = some p ∧ row.balance.cents = projected accountId w + sumOn accountId made
  undrafted : ∀ accountId, accountId ∉ w.projections.drafts p → sumOn accountId made = 0

variable {eventId : UUID} {made : List (UUID × Decimal.Number)}

theorem Working.rely (working : Working p eventId made w) (others : World.Rely p w w') :
    Working p eventId made w' where
  draft := others.processed.drafts ▸ working.draft
  locked := others.processed.locks _ working.locked
  fresh := (others.processed.rows _ working.locked).trans working.fresh
  drafted accountId row found := by
    rw [others.projections.drafts] at found
    obtain ⟨locked, balance⟩ := working.drafted accountId row found
    refine ⟨others.projections.locks _ locked, ?_⟩
    rw [projected, others.projections.rows _ locked]
    exact balance
  undrafted := by simpa only [others.projections.drafts] using working.undrafted

theorem Working.visible (working : Working p eventId made w) (accountId : UUID) :
    (w.projections.visible p accountId).elim 0 (·.balance.cents) = projected accountId w + sumOn accountId made := by
  cases found : (w.projections.drafts p).lookup accountId with
  | none =>
    have undrafted := AList.lookup_eq_none.1 found
    rw [Store.visible_of_undrafted undrafted, working.undrafted accountId undrafted, add_zero]
    rfl
  | some row =>
    rw [Store.visible_of_drafted found]
    exact (working.drafted accountId row found).2

theorem Working.registers {event : Json} (working : Working p eventId made w) (decoded : deltas event = .ok made) :
    Registers eventId event w { w with
      processed := w.processed.commit p
      projections := w.projections.commit p } where
  fresh := by
    rw [registered, List.mem_toFinset]
    exact AList.lookup_eq_none.1 working.fresh
  registered := by
    obtain ⟨row, draft⟩ := working.draft
    ext id
    have committed : id ∈ (w.processed.commit p).rows ↔ id ∈ w.processed.drafts p ∨
        id ∈ w.processed.rows := AList.mem_union
    rw [draft, AList.mem_insert] at committed
    simpa [registered, AList.notMem_empty, AList.mem_keys] using committed
  projected accountId := by
    rw [delta_ok decoded, ← working.visible accountId]
    exact congrArg (Option.elim · 0 _) Store.rows_commit
  decoded := ⟨made, decoded⟩

theorem cents_upserted {accountId : UUID} {excluded : Balance} {updatedAt : Timestamp}
    {seen : Option AccountBalanceProjection} {row : AccountBalanceProjection}
    (written : upserted accountId excluded updatedAt seen = some row) :
    row.balance.cents = seen.elim 0 (·.balance.cents) + excluded.cents := by
  cases seen with
  | none =>
    cases written
    exact (zero_add _).symm
  | some before =>
    obtain ⟨balance, added, rfl⟩ := Option.map_eq_some_iff.1 written
    exact Balance.cents_add added

theorem exec_insertProcessed {eventId : UUID} {eventType : Json} {processedAt : Timestamp} {choice : Choice}
    {result : Except PyError Unit}
    (executed : exec p (.insertProcessed eventId eventType processedAt) choice w = some (result, w')) :
    (∃ error, result = .error error ∧
      (error = .integrityError → (w.processed.visible p eventId).isSome ∨ eventType = .null)) ∧ w' = w ∨
    ∃ row, result = .ok () ∧ w.processed.Free p eventId ∧ ¬(w.processed.visible p eventId).isSome ∧
      w' = { w with processed := w.processed.draft p eventId row } := by
  cases eventType with
  | str text =>
    simp only [exec] at executed
    cases stores : varchar 100 text with
    | none =>
      simp only [stores] at executed
      cases executed
      exact .inl ⟨⟨_, rfl, nofun⟩, rfl⟩
    | some kept =>
      simp only [stores] at executed
      split_ifs at executed with free used
      · cases executed
        exact .inl ⟨⟨_, rfl, fun _ => .inl used⟩, rfl⟩
      · cases executed
        exact .inr ⟨_, rfl, free, used, rfl⟩
  | null =>
    cases executed
    exact .inl ⟨⟨_, rfl, fun _ => .inr rfl⟩, rfl⟩
  | _ =>
    cases executed
    exact .inl ⟨⟨_, rfl, nofun⟩, rfl⟩

theorem exec_upsert {accountId : UUID} {value : Decimal.Number} {updatedAt : Timestamp} {choice : Choice}
    {result : Except PyError Unit}
    (executed : exec p (.upsert accountId value updatedAt) choice w = some (result, w')) :
    (∃ error, result = .error error) ∧ w' = w ∨
    ∃ row, result = .ok () ∧ w.projections.Free p accountId ∧
      row.balance.cents = (w.projections.visible p accountId).elim 0 (·.balance.cents) + cents value ∧
      w' = { w with projections := w.projections.draft p accountId row } := by
  simp only [exec] at executed
  cases stored : Balance.ofNumber value with
  | none =>
    simp only [stored] at executed
    cases executed
    exact .inl ⟨⟨_, rfl⟩, rfl⟩
  | some excluded =>
    simp only [stored] at executed
    split_ifs at executed with free
    cases written : upserted accountId excluded updatedAt (w.projections.visible p accountId) with
    | none =>
      simp only [written] at executed
      cases executed
      exact .inl ⟨⟨_, rfl⟩, rfl⟩
    | some row =>
      simp only [written] at executed
      cases executed
      exact .inr ⟨row, rfl, free, Balance.cents_ofNumber stored ▸ cents_upserted written, rfl⟩

theorem Working.upsert (working : Working p eventId made w) {accountId : UUID} {value : Decimal.Number}
    {row : AccountBalanceProjection}
    (balance : row.balance.cents = (w.projections.visible p accountId).elim 0 (·.balance.cents) + cents value) :
    Working p eventId (made ++ [(accountId, value)])
      { w with projections := w.projections.draft p accountId row } where
  draft := working.draft
  locked := working.locked
  fresh := working.fresh
  drafted other row' found := by
    rw [Store.drafts_draft] at found
    rcases Store.lookup_insert_cases found with ⟨rfl, rfl⟩ | ⟨different, earlier⟩
    · refine ⟨Function.update_self .., ?_⟩
      rw [balance, working.visible, sumOn_append, sumOn_singleton_self, add_assoc]
      rfl
    · obtain ⟨locked, before⟩ := working.drafted other row' earlier
      refine ⟨Store.locks_draft locked, ?_⟩
      rw [before, sumOn_append, sumOn_singleton_ne (Ne.symm different), add_zero]
      rfl
  undrafted other missing := by
    rw [Store.drafts_draft, AList.mem_insert, not_or] at missing
    rw [sumOn_append, working.undrafted other missing.2, sumOn_singleton_ne (Ne.symm missing.1), add_zero]

theorem Closed.register (closed : Closed p w) {eventId : UUID} (fresh : ¬(w.processed.visible p eventId).isSome)
    (row : ProcessedEvent) : Working p eventId [] { w with processed := w.processed.draft p eventId row } where
  draft := ⟨row, by rw [Store.drafts_draft, closed.processed]⟩
  locked := Function.update_self ..
  fresh := by
    rw [Store.visible_of_drafts closed.processed] at fresh
    simpa using fresh
  drafted accountId row found := by
    rw [show w.projections.drafts p = ∅ from closed.projections] at found
    cases found
  undrafted _ _ := sumOn_nil _

/-! The programs of the consumer. -/

variable {started : World} {message : Message}

/-- The code comes from `P` to a value in `Q`; where it raises, the session is given up. -/
abbrev Does (content : UUID → Json) (p : ℕ) (message : Message) (started : World) {α : Type} (P : World → Prop)
    (code : Code α) (Q : α → World → Prop) : Prop :=
  (contract content).Triple p message started (fun _ => P) code (fun value _ => Q value) fun _ _ _ => True

namespace Does
open Contract (Triple)

theorem call (stmt : Stmt) {P : World → Prop} {Q : stmt.Result → World → Prop}
    (executes : ∀ {w w₁ choice result w₂}, P w → World.Rely p w w₁ → w₁.Valid →
      exec p stmt choice w₁ = some (result, w₂) → Guar content p w₁ w₂ ∧ Q result w₂) :
    Does content p message started P (.call stmt .ret) Q :=
  Triple.call fun holds others valid executed =>
    ⟨fun _ => (executes holds others valid executed).1, (executes holds others valid executed).2⟩

theorem checked {α : Type} {P : World → Prop} (result : Except PyError α) :
    Does content p message started P (Consumers.checked result) fun value w => result = .ok value ∧ P w := by
  cases result with
  | ok value => exact Triple.ret fun _ _ holds => ⟨rfl, holds⟩
  | error error => exact Triple.raise fun _ _ _ => trivial

theorem now {P : World → Prop} (stable : ∀ {w w'}, P w → World.Rely p w w' → P w') :
    Does content p message started P Consumers.now fun _ => P :=
  call .now fun holds others valid executed => by
    cases executed
    exact ⟨.still valid rfl rfl, stable holds others⟩

theorem rollback {P : World → Prop} : Does content p message started P Consumers.rollback fun _ _ => True :=
  call .rollback fun _ _ valid executed => by
    cases executed
    exact ⟨.frame ⟨valid.processed.finish, valid.projections.finish⟩
      (fun q other => ⟨.finish other, .finish other⟩) rfl rfl, trivial⟩

theorem commitMessageOffset {P : World → Prop} (received : Message) :
    Does content p message started P (Consumers.commitMessageOffset received) fun _ _ => True := by
  refine Triple.seq (call (.commitOffset ..) (Q := fun _ _ => True) fun {_ _ choice _ _} _ _ valid executed => ?_)
    fun result => (checked result).conseq (fun _ _ holds => holds) fun _ _ _ _ => trivial
  rcases choice with _ | error
  · cases executed
    exact ⟨.still valid rfl rfl, trivial⟩
  · cases executed
    exact ⟨.still valid rfl rfl, trivial⟩

theorem insertProcessed (eventId : UUID) (eventType : Json) (processedAt : Timestamp) :
    Does content p message started (Closed p) (.call (.insertProcessed eventId eventType processedAt) .ret)
      fun result w => result = .ok () → Working p eventId [] w :=
  call (.insertProcessed ..) fun {w w₁ choice result w₂} closed others valid executed => by
    rcases exec_insertProcessed executed with ⟨⟨error, rfl, _⟩, rfl⟩ | ⟨row, rfl, free, used, rfl⟩
    · exact ⟨.still valid rfl rfl, nofun⟩
    · exact ⟨.frame ⟨valid.processed.draft free, valid.projections⟩
        (fun q other => ⟨.draft free other, .refl q _⟩) rfl rfl, fun _ => (closed.rely others).register used _⟩

theorem markEventProcessed (eventId : UUID) (eventType : Json) :
    Does content p message started (Closed p) (Consumers.markEventProcessed eventId eventType)
      fun registered w => registered = true → Working p eventId [] w := by
  refine Triple.bind (now Closed.rely) fun processedAt =>
    Triple.bind (insertProcessed eventId eventType processedAt) fun flushed => ?_
  cases flushed with
  | ok => exact Triple.ret fun _ _ working _ => working rfl
  | error error =>
    cases error
    case integrityError => exact Triple.bind rollback fun _ => Triple.ret fun _ _ _ => nofun
    all_goals exact Triple.raise fun _ _ _ => trivial

theorem applyDelta (accountId : UUID) (value : Decimal.Number) :
    Does content p message started (Working p eventId made) (Consumers.applyDelta accountId value)
      fun _ => Working p eventId (made ++ [(accountId, value)]) := by
  refine Triple.bind (now Working.rely) fun updatedAt => ?_
  have upserted : Does content p message started (Working p eventId made)
      (.call (.upsert accountId value updatedAt) .ret)
      fun result w => result = .ok () → Working p eventId (made ++ [(accountId, value)]) w :=
    call (.upsert ..) fun working others valid executed => by
      rcases exec_upsert executed with ⟨⟨error, rfl⟩, rfl⟩ | ⟨row, rfl, free, balance, rfl⟩
      · exact ⟨.still valid rfl rfl, nofun⟩
      · exact ⟨.frame ⟨valid.processed, valid.projections.draft free⟩
          (fun q other => ⟨.refl q _, .draft free other⟩) rfl rfl,
          fun _ => (working.rely others).upsert balance⟩
  refine Triple.seq upserted fun result => ?_
  cases result with
  | ok => exact Triple.ret fun _ _ working => working rfl
  | error error => exact Triple.raise fun _ _ _ => trivial

theorem applyAll (changes : List (UUID × Decimal.Number)) :
    Does content p message started (Working p eventId made) (Consumers.applyAll changes)
      fun _ => Working p eventId (made ++ changes) := by
  induction changes generalizing made with
  | nil => exact Triple.ret fun _ _ working => by rwa [List.append_nil]
  | cons change changes ih =>
    rw [List.append_cons]
    exact Triple.bind (applyDelta change.1 change.2) fun _ => ih

theorem applyBalanceProjection (event : Json) :
    Does content p message started (Working p eventId []) (Consumers.applyBalanceProjection event)
      fun _ w => ∃ changes, deltas event = .ok changes ∧ Working p eventId changes w := by
  rw [applyBalanceProjection_eq]
  refine Triple.bind (checked (deltas event)) fun changes => Triple.given fun decoded => ?_
  exact (applyAll changes).conseq (fun _ _ holds => holds) fun _ _ _ working => ⟨changes, decoded, working⟩

theorem commit {event : Json} (same : event = content eventId) :
    Does content p message started (fun w => ∃ changes, deltas event = .ok changes ∧ Working p eventId changes w)
      Consumers.commit fun _ _ => True :=
  call .commit fun ⟨changes, decoded, working⟩ others valid executed => by
    cases executed
    exact ⟨⟨⟨valid.processed.commit, valid.projections.commit⟩,
      fun q other => ⟨.commit valid.processed other, .commit valid.projections other⟩,
      .inr ⟨eventId, (working.rely others).registers (same ▸ decoded)⟩⟩, trivial⟩

theorem processEvent {eventId : UUID} (same : message.value = content eventId) (eventType : Json) :
    Does content p message started (Closed p) (Consumers.processEvent message eventId eventType) fun _ _ => True := by
  refine Triple.bind (markEventProcessed eventId eventType) fun registered => ?_
  split_ifs with new
  · refine Triple.bind ((applyBalanceProjection message.value).conseq (fun _ _ working => working new)
      fun _ _ _ holds => holds) fun _ => Triple.bind (commit same) fun _ => Triple.ret fun _ _ _ => trivial
  · exact Triple.bind rollback fun _ => Triple.bind (commitMessageOffset message) fun _ =>
      Triple.ret fun _ _ _ => trivial

theorem processMessage (delivers : Delivers content message) :
    Does content p message started (Closed p) (Consumers.processMessage message) fun _ _ => True := by
  refine Triple.bind (checked (message.value.item "event_id")) fun value => Triple.given fun carried => ?_
  refine Triple.bind (checked value.uuid) fun eventId => Triple.given fun identified => ?_
  have same : message.value = content eventId := by
    apply delivers
    rw [eventIdOf, carried]
    exact identified
  refine Triple.bind (checked (message.value.item "event_type")) fun eventType => Triple.given fun _ => ?_
  refine Triple.bind (Triple.attempt (processEvent same eventType) fun error => ?_) fun unacknowledged => ?_
  · exact Triple.bind rollback fun _ => Triple.raise fun _ _ _ => trivial
  · split_ifs
    · exact commitMessageOffset message
    · exact Triple.ret fun _ _ _ => trivial

end Does

theorem sound : (contract content).Sound (Delivers content) Closed where
  rely_refl := World.Rely.refl
  rely_trans := World.Rely.trans
  ready_rely others closed := closed.rely others
  guar_inv _ guar := guar.valid
  guar_rely _ guar other := guar.others _ other
  close_inv valid := ⟨valid.processed.finish, valid.projections.finish⟩
  close_rely _ other := ⟨.finish other, .finish other⟩
  tick_inv valid ticked := by
    cases ticked
    exact ⟨valid.processed, valid.projections⟩
  tick_rely _ ticked := by
    cases ticked
    exact ⟨.refl _ _, .refl _ _⟩
  body_safe delivers _ closed :=
    (Does.processMessage delivers).safe closed (fun _ _ _ _ => trivial) fun _ _ _ _ => trivial

def Delivering (content : UUID → Json) (_ : State machine) (a : Action machine) : Prop :=
  ∀ p message, a = .start p message → Delivers content message

variable {s t : State machine}

theorem exact_of_step {a : Action machine} (covered : (contract content).Covers Closed s)
    (stepped : machine.step s a = some t) (exact : Exact content s.world) : Exact content t.world := by
  rcases Machine.step_cases stepped with ⟨p, request, rfl, fresh, rfl⟩ |
    ⟨p, choice, proc, stmt, next, result, w', rfl, found, rest, executed, rfl⟩ |
    ⟨p, proc, rfl, found, running, rfl⟩ | ⟨p, proc, rfl, found, finished, rfl⟩ | ⟨e, w', rfl, ticked, rfl⟩
  · exact exact
  · exact (sound.guar_of_step covered found rest executed).1.exact exact
  · exact exact
  · exact exact
  · cases ticked
    exact exact

theorem covers_of_runs (opening : w.Opening) (runs : machine.Runs (Delivering content) (machine.initial w) s) :
    (contract content).Covers Closed s :=
  sound.covers_runs (fun _ p request delivering => delivering p request rfl)
    (.initial opening.valid fun p => ⟨opening.processed.drafts p, opening.projections.drafts p⟩) runs

theorem exact_of_runs (opening : w.Opening) (exact : Exact content w)
    (runs : machine.Runs (Delivering content) (machine.initial w) s) : Exact content s.world := by
  induction runs with
  | refl => exact exact
  | tail runs stepped ih =>
    obtain ⟨a, _, stepped⟩ := stepped
    exact exact_of_step (covers_of_runs opening runs) stepped ih

theorem decoded_of_runs (opening : w.Opening) (fresh : registered w = ∅)
    (runs : machine.Runs (Delivering content) (machine.initial w) s) :
    ∀ eventId ∈ registered s.world, ∃ changes, deltas (content eventId) = .ok changes := by
  induction runs with
  | refl =>
    intro eventId member
    change eventId ∈ registered w at member
    simp [fresh] at member
  | tail runs stepped ih =>
    obtain ⟨a, _, stepped⟩ := stepped
    rcases Machine.step_cases stepped with ⟨p, request, rfl, _, rfl⟩ |
      ⟨p, choice, proc, stmt, next, result, w', rfl, found, rest, executed, rfl⟩ |
      ⟨p, proc, rfl, _, _, rfl⟩ | ⟨p, proc, rfl, _, _, rfl⟩ | ⟨e, w', rfl, ticked, rfl⟩
    · exact ih
    · rcases (sound.guar_of_step (covers_of_runs opening runs) found rest executed).1.rows with
        ⟨processed, _⟩ | ⟨id, registers⟩
      · intro eventId member
        apply ih
        simpa only [registered, processed] using member
      · intro eventId member
        rw [registers.registered, Finset.mem_insert] at member
        rcases member with rfl | earlier
        · exact registers.decoded
        · exact ih eventId earlier
    · exact ih
    · exact ih
    · cases ticked
      exact ih

theorem projected_once (opening : w.Opening) (exact : Exact content w)
    (first : machine.Runs (Delivering content) (machine.initial w) s)
    (second : machine.Runs (Delivering content) (machine.initial w) t) :
    Exact content s.world ∧
      (registered s.world = registered t.world → ∀ accountId,
        projected accountId s.world = projected accountId t.world) := by
  have exact_first := exact_of_runs opening exact first
  refine ⟨exact_first, fun same accountId => ?_⟩
  rw [exact_first, exact_of_runs opening exact second, same]

/-! A deposit and a transfer for the examples. -/

def sampleContent (eventId : UUID) : Json :=
  if eventId = 5 then
    .obj [("event_id", .str (UUID.str 5)), ("event_type", .str "DEPOSIT_POSTED"),
      ("payload", .obj [("account_id", .str (UUID.str 1)), ("amount", .str "100.00")])]
  else
    .obj [("event_id", .str (UUID.str 6)), ("event_type", .str "TRANSFER_POSTED"),
      ("payload", .obj [("source_account_id", .str (UUID.str 1)), ("destination_account_id", .str (UUID.str 2)),
        ("amount", .str "30.005")])]

def emptyTables : World where
  processed := { rows := ∅, drafts := fun _ => ∅, locks := fun _ => none }
  projections := { rows := ∅, drafts := fun _ => ∅, locks := fun _ => none }
  clock := 0
  offsets := fun _ => none

theorem emptyTables_opening : emptyTables.Opening :=
  ⟨⟨fun _ => rfl, fun _ => rfl⟩, ⟨fun _ => rfl, fun _ => rfl⟩⟩

def deliver (p : ℕ) (eventId : UUID) (offset : ℕ) : Action machine :=
  .start p (⟨"ledger-events", 0, offset, sampleContent eventId⟩ : Message)

def steps (ps : List ℕ) : List (Action machine) := ps.map fun p => .step p .proceed

theorem delivering_deliver (p : ℕ) (eventId : UUID) (offset : ℕ) (s : State machine) :
    Delivering sampleContent s (deliver p eventId offset) := by
  intro _ message same id found
  cases same
  by_cases deposit : eventId = 5
  · have own : eventIdOf (sampleContent 5) = .ok 5 := Json.uuid_str 5
    subst deposit
    cases own.symm.trans found
    rfl
  · have own : eventIdOf (sampleContent 6) = .ok 6 := Json.uuid_str 6
    have equal : sampleContent eventId = sampleContent 6 := if_neg deposit
    have found : eventIdOf (sampleContent eventId) = .ok id := found
    rw [equal] at found
    cases own.symm.trans found
    exact equal

theorem delivering_steps (ps : List ℕ) : ∀ a ∈ steps ps, ∀ s, Delivering content s a := by
  intro a member s p message same
  obtain ⟨q, _, rfl⟩ := List.mem_map.1 member
  cases same

/-- Once two copies of the deposit arrive together and the transfer waits for the first one, once the transfer comes
first and the deposit is cut off at its upsert and delivered again. -/
theorem projected_once_sample : ∃ s t : State machine, registered s.world = {5, 6} ∧
    projected 1 s.world = (6999 : ℤ) ∧
    Exact sampleContent s.world ∧ ∀ accountId, projected accountId s.world = projected accountId t.world := by
  have first : (machine.run (fun _ _ => true) (machine.initial emptyTables)
      (deliver 0 5 0 :: deliver 1 5 0 :: deliver 2 6 1 ::
        steps [0, 1, 0, 2, 2, 0, 0, 2, 0, 1, 1, 2, 1, 1, 0, 2, 2, 2, 2])).map
      (fun s => decide (registered s.world = {5, 6} ∧ projected 1 s.world = (6999 : ℤ))) = some true := by
    decide +kernel
  have second : (machine.run (fun _ _ => true) (machine.initial emptyTables)
      (deliver 0 5 0 :: deliver 2 6 1 :: steps [2, 2, 2, 2, 2, 2, 2, 2, 0, 0, 0, 0] ++
        .abort 0 :: .close 0 :: deliver 1 5 0 :: steps [1, 1, 1, 1, 1, 1])).map
      (fun t => decide (registered t.world = {5, 6})) = some true := by
    decide +kernel
  obtain ⟨s, executed, observed⟩ := Option.map_eq_some_iff.1 first
  obtain ⟨t, executed', observed'⟩ := Option.map_eq_some_iff.1 second
  obtain ⟨events, balance⟩ := of_decide_eq_true observed
  have runs : machine.Runs (Delivering sampleContent) (machine.initial emptyTables) s :=
    .of_actions (by simp only [List.forall_mem_cons]; exact ⟨delivering_deliver _ _ _, delivering_deliver _ _ _,
      delivering_deliver _ _ _, delivering_steps _⟩) executed
  have runs' : machine.Runs (Delivering sampleContent) (machine.initial emptyTables) t := by
    refine .of_actions ?_ executed'
    simp only [List.forall_mem_append, List.forall_mem_cons]
    exact ⟨⟨delivering_deliver _ _ _, delivering_deliver _ _ _, delivering_steps _⟩, fun _ _ _ => nofun,
      fun _ _ _ => nofun, delivering_deliver _ _ _, delivering_steps _⟩
  obtain ⟨exact, order⟩ := projected_once emptyTables_opening (fun _ => rfl) runs runs'
  exact ⟨s, t, events, balance, exact, order (events.trans (of_decide_eq_true observed').symm)⟩

end LedgerFlow.Consumers
