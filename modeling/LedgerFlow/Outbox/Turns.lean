import LedgerFlow.Concurrency.Trace
import LedgerFlow.Outbox.Lease
import LedgerFlow.Outbox.Publication

/-! The order in which `process_batch` works: rows are claimed together, each of them is sent once, and its send is
marked before the next one. -/

namespace LedgerFlow.Outbox
open Concurrency

structure Turn where
  todo : List OutboxEvent
  /-- The updates of its open transaction. -/
  edits : List Stmt
  claims : List (UUID × Timestamp)
  marks : List UUID
  /-- The event of the latest send, not marked yet, and whether the send succeeded. -/
  sent : Option (UUID × Bool)
  loaded : Option OutboxEvent

/-- What the outcome of a send makes of the row that is loaded to mark it. -/
def Marked (succeeded : Bool) (loaded edited : OutboxEvent) : Prop :=
  if succeeded then ∃ now, edited = loaded.published now else Fails loaded edited

namespace Turn

def send (φ : Turn) (succeeded : Bool) : Turn :=
  { φ with todo := φ.todo.tail, sent := φ.todo.head?.map fun row => (row.eventId, succeeded) }

def commit (φ : Turn) : Turn :=
  { φ with
    edits := []
    claims := φ.edits.filterMap Stmt.claim ++ φ.claims
    marks := φ.edits.filterMap Stmt.mark ++ φ.marks
    sent := none
    loaded := none }

def after (φ : Turn) : (stmt : Stmt) → stmt.Result → Turn
  | .selectPending now _, rows => { φ with todo := List.map (OutboxEvent.claimed now) rows }
  | .get _, some row => { φ with loaded := some row }
  | .get _, none => { φ with sent := none }
  | .update loaded edited, _ => { φ with edits := .update loaded edited :: φ.edits }
  | .commit, _ => φ.commit
  | .send _ _, .ok () => φ.send true
  | .send _ _, .error _ => φ.send false
  | _, _ => φ

def Allows (φ : Turn) : Stmt → Prop
  | .selectPending _ _ => φ.sent = none ∧ φ.loaded = none ∧ φ.marks = [] ∧ φ.edits = []
  | .get eventId => φ.loaded = none ∧ φ.edits = [] ∧ ∃ succeeded, φ.sent = some (eventId, succeeded)
  | .update loaded edited =>
    φ.sent = none ∧ (Stmt.update loaded edited).mark = none ∨
      φ.edits = [] ∧ φ.loaded = some loaded ∧ ∃ eventId succeeded, φ.sent = some (eventId, succeeded) ∧
        Marked succeeded loaded edited
  | .commit => φ.sent = none ∨ ∃ eventId succeeded loaded edited, φ.sent = some (eventId, succeeded) ∧
      φ.loaded = some loaded ∧ Marked succeeded loaded edited ∧
        (.update loaded edited ∈ φ.edits ∨ loaded.Unchanged edited)
  | .send _ document =>
    φ.sent = none ∧ φ.loaded = none ∧ φ.edits = [] ∧ ∃ row rest, φ.todo = row :: rest ∧
      document = message row ∧ ∃ t, (row.eventId, t) ∈ φ.claims
  | _ => True

end Turn

def turns : Protocol machine Turn := ⟨⟨[], [], [], [], none, none⟩, Turn.after, fun _ => Turn.Allows⟩

theorem mark_claimed (row : OutboxEvent) (now : Timestamp) : (Stmt.update row (row.claimed now)).mark = none := by
  apply if_neg
  rintro (absurd | counted)
  · cases absurd
  · exact absurd counted (Nat.ne_of_lt (Nat.lt_succ_self _))

theorem mark_recovered (row : OutboxEvent) : (Stmt.update row row.recovered).mark = none := by
  apply if_neg
  rintro (absurd | counted)
  · cases absurd
  · exact absurd counted (Nat.ne_of_lt (Nat.lt_succ_self _))

abbrev Takes {α : Type} (φ : Turn) (code : Code α) (Q : Turn → α → Prop) : Prop :=
  ∀ batchSize : ℕ, turns.Follows batchSize Q (fun _ _ => True) φ code

namespace Takes
variable {φ : Turn}

theorem bind {α β : Type} {Q : Turn → α → Prop} {R : Turn → β → Prop} {code : Code α}
    {f : α → Code β}
    (first : Takes φ code Q) (second : ∀ φ value, Q φ value → Takes φ (f value) R) :
    Takes φ (code >>= f) R :=
  fun batchSize => Protocol.Follows.bind (first batchSize) fun ψ value holds => second ψ value holds batchSize

theorem weaken {α : Type} {Q R : Turn → α → Prop} {code : Code α} (takes : Takes φ code Q)
    (weaker : ∀ φ value, Q φ value → R φ value) : Takes φ code R :=
  fun batchSize => Protocol.Follows.weaken (takes batchSize) weaker fun _ _ _ => trivial

theorem now : Takes φ Outbox.now fun ψ _ => ψ = φ := fun _ => ⟨trivial, fun _ _ => rfl⟩

theorem commit (allowed : φ.Allows .commit) : Takes φ Outbox.commit fun ψ _ => ψ = φ.commit :=
  fun _ => ⟨allowed, fun _ _ => rfl⟩

theorem flush {loaded edited : OutboxEvent} (allowed : φ.Allows (.update loaded edited)) :
    Takes φ (Outbox.flush loaded edited) fun ψ _ => loaded.Unchanged edited ∧ ψ = φ ∨
      ¬loaded.Unchanged edited ∧ ψ = { φ with edits := .update loaded edited :: φ.edits } := by
  intro batchSize
  unfold Outbox.flush
  split_ifs with unchanged
  · exact .inl ⟨unchanged, rfl⟩
  · refine ⟨allowed, fun result _ => ?_⟩
    cases result with
    | ok => exact .inr ⟨unchanged, rfl⟩
    | error error => trivial

structure Edited (φ ψ : Turn) (edit : OutboxEvent → OutboxEvent) (rows : List OutboxEvent) : Prop where
  turn : ψ = { φ with edits := ψ.edits }
  earlier : ∀ stmt ∈ φ.edits, stmt ∈ ψ.edits
  edits : ∀ row ∈ rows, ¬row.Unchanged (edit row) → .update row (edit row) ∈ ψ.edits
  unmarked : ∀ stmt ∈ ψ.edits, stmt ∈ φ.edits ∨ stmt.mark = none

theorem flushAll {edit : OutboxEvent → OutboxEvent} (unmarked : ∀ row, (Stmt.update row (edit row)).mark = none)
    (rows : List OutboxEvent) (unsent : φ.sent = none) :
    Takes φ (Outbox.flushAll edit rows) fun ψ _ => Edited φ ψ edit rows := by
  induction rows generalizing φ with
  | nil =>
    intro batchSize
    exact ⟨rfl, fun _ member => member, fun _ absurd => (List.not_mem_nil absurd).elim,
      fun _ member => .inl member⟩
  | cons row rows ih =>
    apply bind (flush (.inl ⟨unsent, unmarked row⟩))
    rintro ψ _ (⟨unchanged, rfl⟩ | ⟨changed, rfl⟩)
    · apply weaken (ih unsent)
      intro χ _ edited
      refine ⟨edited.turn, edited.earlier, fun row' member altered => ?_, edited.unmarked⟩
      rcases List.mem_cons.1 member with rfl | later
      · exact absurd unchanged altered
      · exact edited.edits row' later altered
    · have later : Takes { φ with edits := .update row (edit row) :: φ.edits } _ _ := ih unsent
      apply weaken later
      intro χ _ edited
      refine ⟨edited.turn, fun stmt member => edited.earlier stmt (List.mem_cons_of_mem _ member),
        fun row' member altered => ?_, fun stmt member => ?_⟩
      · rcases List.mem_cons.1 member with rfl | later
        · exact edited.earlier _ List.mem_cons_self
        · exact edited.edits row' later altered
      · rcases edited.unmarked stmt member with new | none
        · rcases List.mem_cons.1 new with rfl | old
          · exact .inr (unmarked row)
          · exact .inl old
        · exact .inr none

structure Unsent (φ : Turn) : Prop where
  sent : φ.sent = none
  loaded : φ.loaded = none
  marks : φ.marks = []
  edits : ∀ stmt ∈ φ.edits, stmt.mark = none

theorem Unsent.edited {ψ : Turn} {edit : OutboxEvent → OutboxEvent} {rows : List OutboxEvent} (unsent : Unsent φ)
    (edited : Edited φ ψ edit rows) : Unsent ψ := by
  rw [edited.turn]
  refine ⟨unsent.sent, unsent.loaded, unsent.marks, fun stmt member => ?_⟩
  rcases edited.unmarked stmt member with earlier | none
  · exact unsent.edits stmt earlier
  · exact none

theorem Unsent.commit (unsent : Unsent φ) : Unsent φ.commit := by
  have none : φ.edits.filterMap Stmt.mark = [] := List.filterMap_eq_nil_iff.2 unsent.edits
  refine ⟨rfl, rfl, ?_, fun _ absurd => (List.not_mem_nil absurd).elim⟩
  simp only [Turn.commit, none, unsent.marks, List.nil_append]

theorem recoverStaleEvents (limit : ℕ) (unsent : Unsent φ) :
    Takes φ (Outbox.recoverStaleEvents limit) fun ψ _ => Unsent ψ ∧ ψ.edits = [] := by
  apply bind now
  rintro φ t rfl batchSize
  refine ⟨trivial, fun rows _ => ?_⟩
  have edits : Takes φ (Outbox.flushAll (·.recovered) rows) _ := flushAll mark_recovered rows unsent.sent
  apply bind edits _ batchSize
  intro ψ _ edited
  apply bind (commit (.inl (unsent.edited edited).sent))
  rintro _ _ rfl _
  exact ⟨(unsent.edited edited).commit, rfl⟩

/-- Between two events: nothing is open, and what is left to send is claimed. -/
structure Ready (φ : Turn) (rows : List OutboxEvent) : Prop where
  todo : φ.todo = rows
  sent : φ.sent = none
  loaded : φ.loaded = none
  edits : φ.edits = []
  claimed : ∀ row ∈ rows, ∃ t, (row.eventId, t) ∈ φ.claims

theorem due_of_returns {now : Timestamp} {limit : ℕ} {rows : List OutboxEvent}
    (returned : machine.Returns (Stmt.selectPending now limit) rows) : ∀ row ∈ rows, Due now row := by
  obtain ⟨p, choice, w, w', executed⟩ := returned
  cases choice with
  | order eventIds =>
    obtain ⟨_, _, _, found⟩ := World.selectForUpdate_cases executed
    intro row member
    obtain ⟨_, _, _, due⟩ := found row member
    exact due
  | _ => cases executed

theorem claimPendingEvents (limit : ℕ) (unsent : Unsent φ) (closed : φ.edits = []) :
    Takes φ (Outbox.claimPendingEvents limit) fun ψ rows => Ready ψ rows := by
  apply bind now
  rintro φ t rfl batchSize
  refine ⟨⟨unsent.sent, unsent.loaded, unsent.marks, closed⟩, fun rows returned => ?_⟩
  have due := due_of_returns returned
  have edits : Takes { φ with todo := List.map (OutboxEvent.claimed t) rows }
      (Outbox.flushAll (·.claimed t) rows) _ :=
    flushAll (fun row => mark_claimed row t) rows unsent.sent
  apply bind edits _ batchSize
  intro ψ _ edited
  have still : ψ.sent = none := by
    rw [edited.turn]
    exact unsent.sent
  apply bind (commit (.inl still))
  rintro _ _ rfl _
  refine ⟨?_, rfl, rfl, rfl, fun row member => ?_⟩
  · rw [edited.turn]
    rfl
  · obtain ⟨row, listed, rfl⟩ := List.mem_map.1 member
    have changed : ¬row.Unchanged (row.claimed t) := by
      intro unchanged
      have pending := unchanged.1
      rw [(due row listed).1] at pending
      cases pending
    exact ⟨t, List.mem_append_left _ (List.mem_filterMap.2 ⟨_, edited.edits row listed changed, rfl⟩)⟩

theorem markEvent {eventId : UUID} {succeeded : Bool} {mark : OutboxEvent → Code OutboxEvent}
    (loaded : φ.loaded = none) (edits : φ.edits = []) (sent : φ.sent = some (eventId, succeeded))
    (marks : ∀ row ψ, Takes ψ (mark row) fun χ edited => χ = ψ ∧ Marked succeeded row edited) :
    Takes φ (Outbox.markEvent eventId mark) fun ψ _ =>
      ψ.todo = φ.todo ∧ ψ.sent = none ∧ ψ.loaded = none ∧ ψ.edits = [] ∧ ∀ claim ∈ φ.claims,
      claim ∈ ψ.claims := by
  intro batchSize
  refine ⟨⟨loaded, edits, succeeded, sent⟩, fun result _ => ?_⟩
  cases result with
  | none => exact ⟨rfl, rfl, loaded, edits, fun _ member => member⟩
  | some row =>
    have marked : Takes { φ with loaded := some row } (mark row) _ := marks row _
    apply bind marked _ batchSize
    rintro _ edited ⟨rfl, holds⟩
    have flushed : Takes { φ with loaded := some row } (Outbox.flush row edited) _ :=
      flush (.inr ⟨edits, rfl, eventId, succeeded, sent, holds⟩)
    apply bind flushed
    intro ψ _ flushed
    have kept : ψ.todo = φ.todo ∧ ψ.claims = φ.claims ∧ ψ.sent = some (eventId, succeeded) ∧
        ψ.loaded = some row := by
      rcases flushed with ⟨_, rfl⟩ | ⟨_, rfl⟩ <;> exact ⟨rfl, rfl, sent, rfl⟩
    have written : .update row edited ∈ ψ.edits ∨ row.Unchanged edited := by
      rcases flushed with ⟨unchanged, _⟩ | ⟨_, rfl⟩
      · exact .inr unchanged
      · exact .inl List.mem_cons_self
    apply weaken (commit (.inr ⟨eventId, succeeded, row, edited, kept.2.2.1, kept.2.2.2, holds, written⟩))
    rintro _ _ rfl
    refine ⟨kept.1, rfl, rfl, rfl, fun claim member => ?_⟩
    exact List.mem_append_right _ (kept.2.1 ▸ member)

theorem markPublished (row : OutboxEvent) :
    Takes φ (Outbox.markPublished row) fun ψ edited => ψ = φ ∧ Marked true row edited :=
  bind now fun _ t same _ => ⟨same, t, rfl⟩

theorem markFailed (row : OutboxEvent) (error : String) :
    Takes φ (Outbox.markFailed row error) fun ψ edited => ψ = φ ∧ Marked false row edited := by
  unfold Outbox.markFailed
  split_ifs with exhausted
  · exact fun _ => ⟨rfl, .gaveUp error exhausted⟩
  · exact bind now fun _ t same _ => ⟨same, .retried error t (not_le.1 exhausted)⟩

theorem publish {row : OutboxEvent} {rows : List OutboxEvent} (ready : Ready φ (row :: rows)) :
    Takes φ (Outbox.publish row) fun ψ _ => Ready ψ rows := by
  have sent : ∀ succeeded, (φ.send succeeded).todo = rows ∧
      (φ.send succeeded).sent = some (row.eventId, succeeded) := by
    intro succeeded
    simp only [Turn.send, ready.todo, List.tail_cons, List.head?_cons, Option.map_some, and_self]
  have finish : ∀ succeeded (ψ : Turn), ψ.todo = (φ.send succeeded).todo ∧ ψ.sent = none ∧
      ψ.loaded = none ∧ ψ.edits = [] ∧
      (∀ claim ∈ (φ.send succeeded).claims, claim ∈ ψ.claims) → Ready ψ rows := by
    rintro succeeded ψ ⟨todo, unsent, loaded, edits, claims⟩
    refine ⟨todo.trans (sent succeeded).1, unsent, loaded, edits, fun row' member => ?_⟩
    obtain ⟨t, claimed⟩ := ready.claimed row' (List.mem_cons_of_mem _ member)
    exact ⟨t, claims _ claimed⟩
  intro batchSize
  refine ⟨⟨ready.sent, ready.loaded, ready.edits, row, rows, ready.todo, rfl,
    ready.claimed row List.mem_cons_self⟩, ?_⟩
  intro outcome _
  cases outcome with
  | error error =>
    have marked : Takes (φ.send false) (Outbox.markEvent row.eventId (Outbox.markFailed · error)) _ :=
      markEvent ready.loaded ready.edits (sent false).2 fun loaded ψ => markFailed loaded error
    apply bind marked _ batchSize
    intro ψ _ marked _
    exact finish false ψ marked
  | ok =>
    have marked : Takes (φ.send true) (Outbox.markEvent row.eventId Outbox.markPublished) _ :=
      markEvent ready.loaded ready.edits (sent true).2 fun loaded ψ => markPublished loaded
    apply bind marked _ batchSize
    intro ψ _ marked _
    exact finish true ψ marked

theorem publishAll {rows : List OutboxEvent} (ready : Ready φ rows) :
    Takes φ (Outbox.publishAll rows) fun _ _ => True := by
  induction rows generalizing φ with
  | nil => exact fun _ => trivial
  | cons row rows ih =>
    apply bind (publish ready)
    intro ψ _ ready'
    exact bind (ih ready') fun _ _ _ _ => trivial

theorem processBatch (batchSize : ℕ) : Takes turns.start (Outbox.processBatch batchSize) fun _ _ => True := by
  have unsent : Unsent turns.start := ⟨rfl, rfl, rfl, fun _ absurd => (List.not_mem_nil absurd).elim⟩
  apply bind (recoverStaleEvents batchSize unsent)
  rintro ψ _ ⟨unsent', closed⟩
  apply bind (claimPendingEvents batchSize unsent' closed)
  intro χ rows ready
  exact publishAll ready

end Takes

/-! What holds in the phase of every call. -/

def Turn.pending (φ : Turn) : List UUID := (φ.sent.map Prod.fst).toList ++ φ.todo.map (·.eventId)

structure Turn.Coherent (φ : Turn) : Prop where
  loaded : ∀ row, φ.loaded = some row → ∃ succeeded, φ.sent = some (row.eventId, succeeded)
  marking : ∀ stmt ∈ φ.edits, ∀ eventId, stmt.mark = some eventId → ∃ succeeded,
      φ.sent = some (eventId, succeeded)
  claimed : ∀ eventId succeeded, φ.sent = some (eventId, succeeded) → ∃ t, (eventId, t) ∈ φ.claims
  distinct : φ.pending.Nodup
  unmarked : ∀ eventId ∈ φ.pending, eventId ∉ φ.marks

/-- Rows come with their keys, and a query returns a row once. -/
def Keyed : (stmt : Stmt) → stmt.Result → Prop
  | .selectPending _ _, rows => (List.map OutboxEvent.eventId rows).Nodup
  | .get eventId, row => ∀ loaded, row = some loaded → loaded.eventId = eventId
  | _, _ => True

variable {p : ℕ} {w w' : World} {φ : Turn} {stmt : Stmt} {choice : Choice} {result : stmt.Result}

theorem mark_cases {eventId : UUID} (marks : stmt.mark = some eventId) :
    ∃ loaded edited, stmt = .update loaded edited ∧ loaded.eventId = eventId := by
  cases stmt with
  | update loaded edited =>
    simp only [Stmt.mark] at marks
    split_ifs at marks
    exact ⟨loaded, edited, rfl, Option.some.inj marks⟩
  | _ => cases marks

theorem nodup_of_select (valid : w.Valid) {Matches : OutboxEvent → Prop} [DecidablePred Matches]
    {key : OutboxEvent → Timestamp} {limit : ℕ} {eventIds : List UUID} {rows : List OutboxEvent}
    (selected : w.selectForUpdate p Matches key limit eventIds = some (rows, w')) :
    (rows.map (·.eventId)).Nodup := by
  simp only [World.selectForUpdate] at selected
  split_ifs at selected with answers
  cases selected
  have nodup : (eventIds.take limit).Nodup :=
    List.Nodup.sublist (List.take_sublist ..) (answers.1.nodup_iff.2 ((AList.keys_nodup _).filter _))
  rw [List.map_filterMap]
  apply nodup.filterMap
  intro a b c first second
  obtain ⟨row, seen, rfl⟩ := Option.map_eq_some_iff.1 first
  obtain ⟨row', seen', same⟩ := Option.map_eq_some_iff.1 second
  rw [← valid.visible seen, ← valid.visible seen', same]

theorem keyed_of_exec (valid : w.Valid) (executed : exec p stmt choice w = some (result, w')) :
    Keyed stmt result := by
  cases stmt with
  | selectPending now limit =>
    cases choice with
    | order eventIds => exact nodup_of_select valid executed
    | _ => cases executed
  | get eventId =>
    cases executed
    exact fun loaded seen => valid.visible seen
  | _ => trivial

namespace Turn

theorem Coherent.of_unloaded (unloaded : φ.loaded = none) (closed : φ.edits = []) (unsent : φ.sent = none)
    (distinct : φ.pending.Nodup) (unmarked : ∀ eventId ∈ φ.pending, eventId ∉ φ.marks) : φ.Coherent where
  loaded row loaded := by cases unloaded.symm.trans loaded
  marking stmt member := by
    rw [closed] at member
    cases member
  claimed eventId succeeded sent := by cases unsent.symm.trans sent
  distinct := distinct
  unmarked := unmarked

theorem Coherent.get (coherent : φ.Coherent) {eventId : UUID} {row : Option OutboxEvent}
    (allows : φ.Allows (.get eventId))
    (keyed : ∀ loaded, row = some loaded → loaded.eventId = eventId) :
    (φ.after (.get eventId) row).Coherent := by
  obtain ⟨unloaded, closed, succeeded, sent⟩ := allows
  cases row with
  | none =>
    have sublist : List.Sublist (φ.todo.map (·.eventId)) φ.pending := List.sublist_append_right ..
    exact .of_unloaded unloaded closed rfl (List.Nodup.sublist sublist coherent.distinct)
      fun id member => coherent.unmarked id (sublist.subset member)
  | some loaded =>
    refine ⟨fun row same => ?_, coherent.marking, coherent.claimed, coherent.distinct, coherent.unmarked⟩
    cases same
    exact ⟨succeeded, keyed loaded rfl ▸ sent⟩

theorem Coherent.send (coherent : φ.Coherent) {topic : String} {document : Json}
    (allows : φ.Allows (.send topic document)) (succeeded : Bool) : (φ.send succeeded).Coherent := by
  obtain ⟨unsent, unloaded, closed, row, rest, todo, _, t, claimed⟩ := allows
  have pending : (φ.send succeeded).pending = φ.pending := by
    simp [Turn.pending, Turn.send, todo, unsent]
  refine ⟨fun row loaded => ?_, fun stmt member => ?_, fun id outcome same => ?_, pending ▸ coherent.distinct,
    pending ▸ coherent.unmarked⟩
  · cases unloaded.symm.trans loaded
  · change stmt ∈ φ.edits at member
    rw [closed] at member
    cases member
  · simp only [Turn.send, todo, List.head?_cons, Option.map_some, Option.some.injEq, Prod.mk.injEq] at same
    exact ⟨t, same.1 ▸ claimed⟩

theorem Coherent.commit (coherent : φ.Coherent) : φ.commit.Coherent := by
  have sublist : List.Sublist (φ.todo.map (·.eventId)) φ.pending := List.sublist_append_right ..
  refine .of_unloaded rfl rfl rfl (List.Nodup.sublist sublist coherent.distinct) fun eventId member marked => ?_
  rcases List.mem_append.1 marked with new | earlier
  · -- the event that is marked now has been taken off the list
    obtain ⟨stmt, edit, marks⟩ := List.mem_filterMap.1 new
    obtain ⟨succeeded, sent⟩ := coherent.marking stmt edit eventId marks
    have distinct := coherent.distinct
    rw [Turn.pending, sent] at distinct
    exact (List.nodup_cons.1 distinct).1 member
  · exact coherent.unmarked eventId (sublist.subset member) earlier

theorem Coherent.update (coherent : φ.Coherent) {loaded edited : OutboxEvent}
    (allows : φ.Allows (.update loaded edited)) :
    Coherent { φ with edits := .update loaded edited :: φ.edits } := by
  refine ⟨coherent.loaded, fun stmt member eventId marks => ?_, coherent.claimed, coherent.distinct,
    coherent.unmarked⟩
  rcases List.mem_cons.1 member with rfl | earlier
  · obtain ⟨_, _, same, own⟩ := mark_cases marks
    cases same
    rcases allows with ⟨_, unmarked⟩ | ⟨_, row, _⟩
    · cases unmarked.symm.trans marks
    · exact own ▸ coherent.loaded loaded row
  · exact coherent.marking stmt earlier eventId marks

theorem Coherent.select (coherent : φ.Coherent) {now : Timestamp} {limit : ℕ} (rows : List OutboxEvent)
    (allows : φ.Allows (.selectPending now limit)) (nodup : (rows.map OutboxEvent.eventId).Nodup) :
    Coherent { φ with todo := rows.map (OutboxEvent.claimed now) } := by
  obtain ⟨unsent, unloaded, unmarked, closed⟩ := allows
  have pending : Turn.pending { φ with todo := rows.map (OutboxEvent.claimed now) } =
      rows.map OutboxEvent.eventId := by
    simp only [Turn.pending, unsent, Option.map_none, Option.toList_none, List.nil_append, List.map_map]
    rfl
  refine ⟨coherent.loaded, coherent.marking, coherent.claimed, pending ▸ nodup, fun eventId _ marked => ?_⟩
  change eventId ∈ φ.marks at marked
  rw [unmarked] at marked
  cases marked

theorem Coherent.after (coherent : φ.Coherent) (allows : φ.Allows stmt) (keyed : Keyed stmt result) :
    (φ.after stmt result).Coherent := by
  cases stmt with
  | now | selectStale => exact coherent
  | selectPending now limit =>
    exact coherent.select result allows keyed
  | get eventId => exact coherent.get allows keyed
  | update loaded edited => exact coherent.update allows
  | commit => exact coherent.commit
  | send topic document =>
    cases result with
    | ok => exact coherent.send allows true
    | error error => exact coherent.send allows false

end Turn

/-! Whole runs. -/

variable {ok : State machine → Action machine → Prop} {s : State machine} {trace : List (Executed language)}
  {proc : Proc machine}

theorem allows_of_traces (traces : machine.Traces ok (machine.initial w) trace s) (found : s.procs p = some proc)
    {next : stmt.Result → Code ℕ} (rest : proc.rest = .call stmt next) : (turns.phase p trace).Allows stmt := by
  have follows : turns.Follows proc.request (fun _ _ => True) (fun _ _ => True) (turns.phase p trace) proc.rest :=
    Protocol.follows_of_traces (Φ := fun _ => True) (Q := fun _ _ _ => True) (fun _ _ _ _ => trivial)
      (fun batchSize _ => Takes.processBatch batchSize batchSize) (fun _ => trivial) traces found
  rw [rest] at follows
  exact follows.1

theorem coherent_of_traces (opening : w.Opening) (traces : machine.Traces ok (machine.initial w) trace s) (p : ℕ) :
    (turns.phase p trace).Coherent := by
  induction traces with
  | refl => exact .of_unloaded rfl rfl rfl List.nodup_nil fun _ absurd => (List.not_mem_nil absurd).elim
  | @tail trace s t a run _ stepped ih =>
    by_cases mine : ∃ choice, a = .step p choice
    · obtain ⟨choice, rfl⟩ := mine
      obtain ⟨proc, stmt, next, result, w', found, rest, executed, rfl⟩ := Machine.step_own stepped
      rw [Protocol.phase_of_own found rest executed]
      exact ih.after (allows_of_traces run found rest) (keyed_of_exec (covers opening run.runs).inv executed)
    · rw [Protocol.phase_of_other fun choice same => mine ⟨choice, same⟩]
      exact ih

theorem marked_of_mark (opening : w.Opening) (traces : machine.Traces ok (machine.initial w) trace s)
    (found : s.procs p = some proc) {loaded edited : OutboxEvent} {w₁ : World} {earlier : List (Stmt × World)}
    (latest : proc.past = (.update loaded edited, w₁) :: earlier) {eventId : UUID}
    (mark : (Stmt.update loaded edited).mark = some eventId) :
    ∃ succeeded, (turns.phase p trace).sent = some (loaded.eventId, succeeded) ∧
      (turns.phase p trace).loaded = some loaded ∧ Marked succeeded loaded edited := by
  have coherent := coherent_of_traces opening traces p
  obtain ⟨φ, result, allowed, phase⟩ :=
    Protocol.last_of_traces (P := turns) (Φ := fun _ => True) (Q := fun _ _ _ => True)
    (E := fun _ _ _ => True) (fun _ _ _ _ => trivial) (fun batchSize _ => Takes.processBatch batchSize batchSize)
    (fun _ => trivial) traces found latest
  have sent : (turns.phase p trace).sent = φ.sent := by
    rw [phase]
    rfl
  have row : (turns.phase p trace).loaded = φ.loaded := by
    rw [phase]
    rfl
  rcases allowed with ⟨_, unmarked⟩ | ⟨_, same, eventId, succeeded, own, marked⟩
  · cases unmarked.symm.trans mark
  · obtain ⟨outcome, named⟩ := coherent.loaded loaded (row.trans same)
    cases (sent.trans own).symm.trans named
    exact ⟨succeeded, sent.trans own, row.trans same, marked⟩

theorem marked_of_traces (opening : w.Opening) (traces : machine.Traces ok (machine.initial w) trace s)
    (found : s.procs p = some proc) {loaded edited : OutboxEvent} {w₁ : World} {earlier : List (Stmt × World)}
    (latest : proc.past = (.update loaded edited, w₁) :: earlier) (marks : Marks loaded edited) :
    ∃ succeeded, (turns.phase p trace).sent = some (loaded.eventId, succeeded) ∧
      (turns.phase p trace).loaded = some loaded ∧ Marked succeeded loaded edited :=
  marked_of_mark opening traces found latest marks.mark

/-- The phase has the claims and the marks that the statements have made. -/
structure Turn.Records (φ : Turn) (past : List (Stmt × World)) : Prop where
  claiming : φ.edits.filterMap Stmt.claim = (sinceCommit past).filterMap (Stmt.claim ·.1)
  marking : φ.edits.filterMap Stmt.mark = (sinceCommit past).filterMap (Stmt.mark ·.1)
  claims : φ.claims = committed Stmt.claim past
  marks : φ.marks = committed Stmt.mark past

theorem Turn.Records.after {past : List (Stmt × World)} (records : φ.Records past) (stmt : Stmt)
    (result : stmt.Result) (w : World) : (φ.after stmt result).Records ((stmt, w) :: past) := by
  cases stmt with
  | update loaded edited =>
    refine ⟨?_, ?_, records.claims, records.marks⟩
    · change List.filterMap Stmt.claim (_ :: φ.edits) = List.filterMap (Stmt.claim ·.1) (_ :: sinceCommit past)
      simp only [List.filterMap_cons, records.claiming]
    · change List.filterMap Stmt.mark (_ :: φ.edits) = List.filterMap (Stmt.mark ·.1) (_ :: sinceCommit past)
      simp only [List.filterMap_cons, records.marking]
  | commit =>
    refine ⟨rfl, rfl, ?_, ?_⟩
    · change φ.edits.filterMap Stmt.claim ++ φ.claims = (sinceCommit past).filterMap (Stmt.claim ·.1) ++ _
      rw [records.claiming, records.claims]
    · change φ.edits.filterMap Stmt.mark ++ φ.marks = (sinceCommit past).filterMap (Stmt.mark ·.1) ++ _
      rw [records.marking, records.marks]
  | now | selectPending | selectStale => exact ⟨records.claiming, records.marking, records.claims, records.marks⟩
  | get eventId =>
    cases result <;> exact ⟨records.claiming, records.marking, records.claims, records.marks⟩
  | send topic document =>
    cases result <;> exact ⟨records.claiming, records.marking, records.claims, records.marks⟩

theorem records_of_traces (traces : machine.Traces ok (machine.initial w) trace s) (found : s.procs p = some proc) :
    (turns.phase p trace).Records proc.past :=
  Protocol.records_of_traces (R := fun _ => Turn.Records) (fun _ => ⟨rfl, rfl, rfl, rfl⟩)
    (fun _ _ _ _ _ records => records.after _ _ _) traces found

theorem live_of_sent (opening : w.Opening) (traces : machine.Traces ok (machine.initial w) trace s)
    (found : s.procs p = some proc) {eventId : UUID} {succeeded : Bool}
    (sent : (turns.phase p trace).sent = some (eventId, succeeded)) : ∃ t, Live p eventId t s := by
  have coherent := coherent_of_traces opening traces p
  have records := records_of_traces traces found
  obtain ⟨t, claimed⟩ := coherent.claimed eventId succeeded sent
  have pending : eventId ∈ (turns.phase p trace).pending := by
    rw [Turn.pending, sent]
    exact List.mem_cons_self
  exact ⟨t, proc, found, records.claims ▸ claimed, records.marks ▸ coherent.unmarked eventId pending⟩

theorem rely_of_others {t : State machine} {a : Action machine} {q : ℕ} (covered : contract.Covers Unused s)
    (stepped : machine.step s a = some t) (notMine : ∀ choice, a ≠ .step q choice) (notClosed : a ≠ .close q) :
    World.Rely q s.world t.world := by
  rcases Machine.step_cases stepped with ⟨p, request, rfl, fresh, rfl⟩ |
    ⟨p, choice, proc, stmt, next, result, w', rfl, found, rest, executed, rfl⟩ |
    ⟨p, proc, rfl, _, _, rfl⟩ | ⟨p, proc, rfl, _, _, rfl⟩ | ⟨e, w', rfl, ticked, rfl⟩
  · exact .refl q _
  · have other : q ≠ p := fun same => notMine choice (by rw [same])
    exact (sound.guar_of_step covered found rest executed).1.others q other
  · exact .refl q _
  · have other : q ≠ p := fun same => notClosed (by rw [same])
    exact ⟨.finish other, le_refl _⟩
  · exact (covered.inv.tick ticked).2 q

theorem drafts_of_others {t : State machine} {a : Action machine} {q : ℕ} (covered : contract.Covers Unused s)
    (stepped : machine.step s a = some t) (notMine : ∀ choice, a ≠ .step q choice) (notClosed : a ≠ .close q) :
    (World.events t.world).drafts q = (World.events s.world).drafts q :=
  (rely_of_others covered stepped notMine notClosed).events.drafts

theorem undrafted_of_traces (opening : w.Opening) (traces : machine.Traces ok (machine.initial w) trace s)
    (running : Protocol.Open s p) : (turns.phase p trace).edits = [] → (World.events s.world).drafts p = ∅ := by
  apply Protocol.knows_of_traces (P := turns)
    (K := fun p φ w => φ.edits = [] → (World.events w).drafts p = ∅) _ _ _ traces running
  · exact fun p _ => opening.store.drafts p
  · intro trace s p proc choice stmt next result w' run _ found rest executed knows closed
    cases stmt with
    | now =>
      cases executed
      exact knows closed
    | get eventId =>
      have before : (turns.phase p trace).edits = [] := by cases result <;> exact closed
      cases executed
      exact knows before
    | selectPending | selectStale =>
      cases choice with
      | order eventIds =>
        obtain ⟨_, _, rfl, _⟩ := World.selectForUpdate_cases executed
        exact knows closed
      | _ => cases executed
    | update loaded edited => cases closed
    | commit =>
      cases executed
      exact Store.drafts_commit
    | send topic document =>
      have before : (turns.phase p trace).edits = [] := by cases result <;> exact closed
      have same : World.events w' = World.events s.world := (exec_send executed).1
      rw [same]
      exact knows before
  · intro trace s t a q run _ stepped notMine notClosed _ knows closed
    exact (drafts_of_others (covers opening run.runs) stepped notMine notClosed).trans (knows closed)

theorem loads_of_traces (opening : w.Opening) (traces : machine.Traces ok (machine.initial w) trace s)
    (found : s.procs p = some proc) {eventId : UUID} {next : Option OutboxEvent → Code ℕ}
    (rest : proc.rest = .call (.get eventId) next) {row : Option OutboxEvent}
    (executed : exec p (.get eventId) choice s.world = some (row, w')) :
    row = (World.events s.world).rows.lookup eventId ∧ w' = s.world := by
  have closed : (turns.phase p trace).edits = [] := (allows_of_traces traces found rest).2.1
  have empty := undrafted_of_traces opening traces (Protocol.open_of_call found rest) closed
  cases executed
  exact ⟨Store.visible_of_drafts empty, rfl⟩

end LedgerFlow.Outbox
