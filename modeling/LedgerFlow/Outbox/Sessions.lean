import LedgerFlow.Outbox.Lifecycle

/-! Every session of `process_batch` keeps the contract, and so does every interleaving of workers. -/

namespace LedgerFlow.Outbox
open Concurrency

variable {p n : ℕ} {started w w' : World} {past : List (Stmt × World)}

abbrev Safe (p n : ℕ) (started : World) (rest : Code ℕ) (past : List (Stmt × World)) (w : World) : Prop :=
  contract.Safe p n started rest past w

structure Closed (p : ℕ) (past : List (Stmt × World)) (w : World) : Prop where
  drafts : w.events.drafts p = ∅
  updates : ∀ loaded edited w₁, (Stmt.update loaded edited, w₁) ∉ sinceCommit past

theorem Closed.rely (closed : Closed p past w) (others : World.Rely p w w') : Closed p past w' :=
  ⟨others.events.drafts.trans closed.drafts, closed.updates⟩

theorem Safe.read {stmt : Stmt} {next : stmt.Result → Code ℕ} (closed : Closed p past w)
    (reads : ∀ {w₁ w₂ choice result}, exec p stmt choice w₁ = some (result, w₂) →
      w₂.events = w₁.events ∧ w₂.clock = w₁.clock)
      (other : ∀ loaded edited, stmt ≠ .update loaded edited)
    (uncommitted : stmt ≠ .commit)
    (rest : ∀ w₁ choice result w₂, exec p stmt choice w₁ = some (result, w₂) → World.Rely p w w₂ →
      Closed p ((stmt, w₁) :: past) w₂ → Safe p n started (next result) ((stmt, w₁) :: past) w₂) :
    Safe p n started (.call stmt next) past w := by
  intro w₁ others valid choice result w₂ executed
  obtain ⟨events, clock⟩ := reads executed
  have keeps : ∀ q, World.Rely q w₁ w₂ := fun q => ⟨events ▸ .refl q _, clock.ge⟩
  have valid' : w₂.Valid := ⟨events ▸ valid.store, events ▸ valid.keyed, events ▸ valid.draftKeyed⟩
  have closed' : Closed p ((stmt, w₁) :: past) w₂ := by
    refine ⟨(closed.rely (others.trans (keeps p))).drafts, fun loaded edited w₃ member => ?_⟩
    rcases mem_sinceCommit member with same | earlier
    · exact other loaded edited (congrArg Prod.fst same).symm
    · exact closed.updates loaded edited w₃ earlier
  refine ⟨.frame (fun head => uncommitted (Option.some.inj head)) valid' (fun q _ => keeps q)
    (by rw [events]), ?_⟩
  exact rest w₁ choice result w₂ executed (others.trans (keeps p)) closed'

theorem Safe.now {next : Timestamp → Code ℕ} (closed : Closed p past w)
    (rest : ∀ w₁ w₂, World.Rely p w w₂ → Closed p ((.now, w₁) :: past) w₂ →
      ∀ t ≤ w₂.clock, Safe p n started (next t) ((.now, w₁) :: past) w₂) :
    Safe p n started (.call .now next) past w := by
  refine .read closed (fun executed => ?_) (fun _ _ => nofun) nofun
    fun w₁ choice result w₂ executed others closed' => ?_
  · cases executed
    exact ⟨rfl, rfl⟩
  · cases executed
    exact rest w₁ w₁ others closed' _ (le_refl _)

theorem Safe.get {eventId : UUID} {next : Option OutboxEvent → Code ℕ} (closed : Closed p past w)
    (rest : ∀ w₁ w₂ row, Closed p ((.get eventId, w₁) :: past) w₂ →
      Safe p n started (next row) ((.get eventId, w₁) :: past) w₂) :
    Safe p n started (.call (.get eventId) next) past w := by
  refine .read closed (fun executed => ?_) (fun _ _ => nofun) nofun
    fun w₁ choice result w₂ executed others closed' => ?_
  · cases executed
    exact ⟨rfl, rfl⟩
  · exact rest w₁ w₂ result closed'

theorem Safe.send {topic : String} {document : Json} {next : Except String Unit → Code ℕ}
    (closed : Closed p past w)
    (rest : ∀ w₁ w₂ result, Closed p ((.send topic document, w₁) :: past) w₂ →
      Safe p n started (next result) ((.send topic document, w₁) :: past) w₂) :
    Safe p n started (.call (.send topic document) next) past w := by
  refine .read closed (fun executed => ?_) (fun _ _ => nofun) nofun
    fun w₁ choice result w₂ executed others closed' => ?_
  · exact exec_send executed
  · exact rest w₁ w₂ result closed'

theorem Safe.commit {next : Unit → Code ℕ}
    (moves : ∀ w₁, World.Rely p w w₁ → w₁.Valid → ∀ eventId v,
      (w₁.events.drafts p).lookup eventId = some v →
      ∃ row, w₁.events.rows.lookup eventId = some row ∧ Moves past w₁.clock row v)
    (claims : ∀ w₁, World.Rely p w w₁ → ∀ loaded edited w₂ t,
      (.update loaded edited, w₂) ∈ sinceCommit past →
      edited.claimedAt = some t → w₁.events.rows.lookup loaded.eventId = some loaded ∧
      Due t loaded ∧ t ≤ w₁.clock ∧
        (w₁.events.drafts p).lookup loaded.eventId = some (loaded.claimed t))
    (rest : ∀ w₁ w₂, Closed p ((.commit, w₁) :: past) w₂ → Safe p n started (next ())
      ((.commit, w₁) :: past) w₂) :
    Safe p n started (.call .commit next) past w := by
  intro w₁ others valid choice result w₂ executed
  cases executed
  refine ⟨⟨valid.commit, fun q other => ⟨.commit valid.store other, le_refl _⟩, fun head => absurd rfl head,
    fun eventId => ?_, fun loaded edited w₂ t _ member since => ?_⟩,
      rest _ _ ⟨Store.drafts_commit, fun _ _ _ => List.not_mem_nil⟩⟩
  · cases drafted : (w₁.events.drafts p).lookup eventId with
    | none => exact .inl (Store.visible_of_undrafted (AList.lookup_eq_none.1 drafted))
    | some v =>
      obtain ⟨row, stored, moved⟩ := moves w₁ others valid eventId v drafted
      exact .inr ⟨row, v, stored, Store.visible_of_drafted drafted, moved⟩
  · obtain ⟨stored, due, before, drafted⟩ := claims w₁ others loaded edited w₂ t member since
    exact ⟨stored, due, before, Store.visible_of_drafted drafted⟩

/-- The session has locked `rows` and has drafted its edit for the rows of `done`. -/
structure Drafted (p : ℕ) (edit : OutboxEvent → OutboxEvent) (rows done : List OutboxEvent)
    (past : List (Stmt × World)) (w : World) : Prop where
  locked : ∀ row ∈ rows, w.events.locks row.eventId = some p ∧ w.events.rows.lookup row.eventId = some row
  drafts : ∀ eventId v, (w.events.drafts p).lookup eventId = some v → ∃ row ∈ rows,
      row.eventId = eventId ∧ v = edit row
  flushed : ∀ row ∈ done, row ∈ rows ∧ (w.events.drafts p).lookup row.eventId = some (edit row)
  updates : ∀ loaded edited w₁, (.update loaded edited, w₁) ∈ sinceCommit past → loaded ∈ done ∧
      edited = edit loaded

variable {edit : OutboxEvent → OutboxEvent} {rows done : List OutboxEvent}

theorem Drafted.rely (drafted : Drafted p edit rows done past w) (others : World.Rely p w w') :
    Drafted p edit rows done past w' where
  locked row member := by
    obtain ⟨locked, stored⟩ := drafted.locked row member
    exact ⟨others.events.locks _ locked, (others.events.rows _ locked).trans stored⟩
  drafts := by simpa only [others.events.drafts] using drafted.drafts
  flushed := by simpa only [others.events.drafts] using drafted.flushed
  updates := drafted.updates

theorem Drafted.select {Matches : OutboxEvent → Prop} [DecidablePred Matches] {key : OutboxEvent → Timestamp}
    {limit : ℕ} {eventIds : List UUID} (stmt : Stmt) (w₁ : World) (closed : Closed p past w) (valid : w.Valid)
    (selects : ∀ loaded edited, stmt ≠ .update loaded edited)
    (selected : w.selectForUpdate p Matches key limit eventIds = some (rows, w')) :
    Drafted p edit rows [] ((stmt, w₁) :: past) w' ∧ (∀ row ∈ rows, Matches row) ∧ w'.Valid ∧
      (∀ q, q ≠ p → World.Rely q w w') ∧ w'.events.rows = w.events.rows ∧ w'.clock = w.clock := by
  obtain ⟨locked, free, rfl, found⟩ := World.selectForUpdate_cases selected
  refine ⟨⟨fun row member => ?_, fun eventId v drafted => ?_, fun _ absurd => (List.not_mem_nil absurd).elim,
    fun loaded edited w₂ member => ?_⟩, fun row member => ?_, valid.lockAll free,
    fun q other => ⟨.lockAll free other, le_refl _⟩, rfl, rfl⟩
  · obtain ⟨id, chosen, seen, _⟩ := found row member
    obtain rfl := valid.visible seen
    exact ⟨Store.locks_lockAll chosen, (Store.visible_of_drafts closed.drafts).symm.trans seen⟩
  · rw [Store.drafts_lockAll, closed.drafts] at drafted
    cases drafted
  · rcases mem_sinceCommit member with same | earlier
    · exact absurd (congrArg Prod.fst same).symm (selects loaded edited)
    · exact absurd earlier (closed.updates loaded edited w₂)
  · obtain ⟨_, _, _, matched⟩ := found row member
    exact matched

theorem Drafted.update {row : OutboxEvent} (drafted : Drafted p edit rows done past w) (member : row ∈ rows)
    (merges : ∀ row, row.merge row (edit row) = edit row) {v : OutboxEvent}
    (seen : w.events.visible p row.eventId = some v) (w₁ : World) :
    Drafted p edit rows (row :: done) ((.update row (edit row), w₁) :: past)
      { w with events := w.events.draft p row.eventId (v.merge row (edit row)) } := by
  obtain ⟨locked, stored⟩ := drafted.locked row member
  -- the session sees the row as it is stored or as it has drafted it
  have merged : v.merge row (edit row) = edit row := by
    rcases AList.lookup_union_eq_some.1 seen with own | ⟨_, own⟩
    · obtain ⟨row', member', same, rfl⟩ := drafted.drafts _ _ own
      obtain ⟨_, stored'⟩ := drafted.locked row' member'
      rw [same, stored] at stored'
      cases stored'
      simp [OutboxEvent.merge]
    · rw [stored] at own
      cases own
      exact merges row
  refine ⟨fun row' member' => ?_, fun eventId u found => ?_, fun row' member' => ?_,
    fun loaded edited w₂ updated => ?_⟩
  · obtain ⟨locked', stored'⟩ := drafted.locked row' member'
    exact ⟨Store.locks_draft locked', stored'⟩
  · rw [Store.drafts_draft, merged] at found
    rcases Store.lookup_insert_cases found with ⟨rfl, rfl⟩ | ⟨_, earlier⟩
    · exact ⟨row, member, rfl, rfl⟩
    · exact drafted.drafts eventId u earlier
  · rw [Store.drafts_draft, merged]
    rcases List.mem_cons.1 member' with rfl | earlier
    · exact ⟨member, AList.lookup_insert _⟩
    · obtain ⟨listed, own⟩ := drafted.flushed row' earlier
      refine ⟨listed, ?_⟩
      by_cases same : row'.eventId = row.eventId
      · obtain ⟨row'', member'', same'', equal⟩ := drafted.drafts _ _ own
        have stored'' := (drafted.locked row'' member'').2
        rw [same'', same, stored] at stored''
        cases stored''
        rw [same, AList.lookup_insert, equal]
      · rw [AList.lookup_insert_ne same]
        exact own
  · rcases mem_sinceCommit updated with same | earlier
    · cases same
      exact ⟨List.mem_cons_self, rfl⟩
    · obtain ⟨member', equal⟩ := drafted.updates loaded edited w₂ earlier
      exact ⟨List.mem_cons_of_mem _ member', equal⟩

theorem Safe.update {loaded edited : OutboxEvent} {next : Except PyError Unit → Code ℕ}
    (refused : ∀ w₁, Safe p n started (next (.error .failure)) ((.update loaded edited, w₁) :: past) w₁)
    (rest : ∀ w₁ row, World.Rely p w w₁ → w₁.Valid → w₁.events.visible p loaded.eventId = some row →
      Safe p n started (next (.ok ())) ((.update loaded edited, w₁) :: past)
        { w₁ with events := w₁.events.draft p loaded.eventId (row.merge loaded edited) }) :
    Safe p n started (.call (.update loaded edited) next) past w := by
  intro w₁ others valid choice result w₂ executed
  have uncommitted : some (Stmt.update loaded edited) ≠ some .commit := nofun
  obtain ⟨free, ⟨_, rfl, rfl⟩ | ⟨row, seen, rfl, rfl⟩⟩ := exec_update choice executed
  · exact ⟨.frame uncommitted valid (fun q _ => .refl q w₂) rfl, refused w₂⟩
  · have keyed : row.eventId = loaded.eventId := valid.visible seen
    exact ⟨.frame uncommitted (valid.draft free keyed) (fun q other => ⟨.draft free other, le_refl _⟩) rfl,
      rest w₁ row others valid seen⟩

theorem Safe.assoc {α β : Type} {a : Code α} {f : α → Code β} {g : β → Code ℕ}
    (safe : Safe p n started (a >>= fun value => f value >>= g) past w) :
    Safe p n started (a >>= f >>= g) past w := by
  rw [Prog.bind_assoc]
  exact safe

theorem Safe.flushAll {rest : Code ℕ} (changes : ∀ row ∈ rows, (edit row).status ≠ row.status)
    (merges : ∀ row, row.merge row (edit row) = edit row) {todo : List OutboxEvent}
    (listed : ∀ row ∈ todo, row ∈ rows)
    (drafted : Drafted p edit rows done past w)
    (finish : ∀ done past' w', Drafted p edit rows done past' w' → w.clock ≤ w'.clock →
      Safe p n started rest past' w') :
    Safe p n started (Outbox.flushAll edit todo >>= fun _ => rest) past w := by
  induction todo generalizing done past w with
  | nil => exact finish done past w drafted (le_refl _)
  | cons row todo ih =>
    have member := listed row List.mem_cons_self
    have changed : ¬row.Unchanged (edit row) := fun unchanged => changes row member unchanged.1
    have flushed : flush row (edit row) = .call (.update row (edit row)) checked := if_neg changed
    refine .assoc (a := flush row (edit row)) ?_
    rw [flushed]
    refine .update (fun w₁ => trivial) fun w₁ v others valid seen => ?_
    refine ih (fun row' later => listed row' (List.mem_cons_of_mem _ later))
      ((drafted.rely others).update member merges seen w₁) fun done' past' w' drafted' later => ?_
    exact finish done' past' w' drafted' (others.clock.trans later)

theorem Safe.editAll {next : Unit → Code ℕ} {t : Timestamp} (drafted : Drafted p edit rows [] past w)
    (before : t ≤ w.clock)
    (changes : ∀ row ∈ rows, (edit row).status ≠ row.status)
    (merges : ∀ row, row.merge row (edit row) = edit row)
    (moves : ∀ row ∈ rows, ∀ past clock, t ≤ clock → Moves past clock row (edit row))
    (claims : ∀ row ∈ rows, ∀ t', (edit row).claimedAt = some t' → Due t' row ∧ t' ≤ t ∧
      edit row = row.claimed t')
    (rest : ∀ past' w', Closed p past' w' → Safe p n started (next ()) past' w') :
    Safe p n started (Outbox.flushAll edit rows >>= fun _ => .call .commit next) past w := by
  refine .flushAll changes merges (fun _ member => member) drafted fun done past' w' drafted' later => ?_
  refine .commit (fun w₁ others valid eventId v found => ?_)
    (fun w₁ others loaded edited w₂ t' member since => ?_) fun w₁ w₂ closed => rest _ _ closed
  · obtain ⟨row, member, rfl, rfl⟩ := (drafted'.rely others).drafts eventId v found
    exact ⟨row, ((drafted'.rely others).locked row member).2,
      moves row member past' w₁.clock (before.trans (later.trans others.clock))⟩
  · obtain ⟨flushed, rfl⟩ := drafted'.updates loaded edited w₂ member
    obtain ⟨listed, own⟩ := (drafted'.rely others).flushed loaded flushed
    obtain ⟨due, now, claimed⟩ := claims loaded listed t' since
    exact ⟨((drafted'.rely others).locked loaded listed).2, due,
      now.trans (before.trans (later.trans others.clock)), own.trans (congrArg some claimed)⟩

/-- From a closed session the code comes to a closed session with a value that satisfies `A`. -/
def Does {α : Type} (p n : ℕ) (started : World) (code : Code α) (A : α → Prop) : Prop :=
  ∀ {next : α → Code ℕ} {past : List (Stmt × World)} {w : World}, Closed p past w →
    (∀ value past' w', A value → Closed p past' w' → Safe p n started (next value) past' w') →
    Safe p n started (code >>= next) past w

namespace Does
variable {α β : Type} {A : α → Prop} {B : β → Prop}

theorem ret {value : α} (holds : A value) : Does p n started (.ret value) A :=
  fun closed rest => rest value _ _ holds closed

theorem bind {code : Code α} {f : α → Code β} (first : Does p n started code A)
    (second : ∀ value, A value → Does p n started (f value) B) : Does p n started (code >>= f) B :=
  fun closed rest => .assoc (first closed fun value _ _ holds closed' => second value holds closed' rest)

theorem now : Does p n started Outbox.now fun _ => True :=
  fun closed rest => .now closed fun _ _ _ closed' t _ => rest t _ _ trivial closed'

theorem get (eventId : UUID) : Does p n started (.call (.get eventId) .ret) fun _ => True :=
  fun closed rest => .get closed fun _ _ row closed' => rest row _ _ trivial closed'

theorem send (topic : String) (document : Json) :
    Does p n started (.call (.send topic document) .ret) fun _ => True :=
  fun closed rest => .send closed fun _ _ result closed' => rest result _ _ trivial closed'

theorem recoverStaleEvents (limit : ℕ) : Does p n started (Outbox.recoverStaleEvents limit) fun _ => True := by
  intro next past w closed rest
  refine .now closed fun w₀ w₁ _ closed t before w₂ others valid choice events w₃ executed => ?_
  rcases choice with _ | eventIds | _
  · cases executed
  · obtain ⟨drafted, stale, valid', keeps, same, clock⟩ :=
      Drafted.select (.selectStale _ limit) w₂ (closed.rely others) valid (fun _ _ => nofun) executed
    refine ⟨.frame nofun valid' keeps same, Safe.assoc (a := Outbox.flushAll (·.recovered) events)
      (.editAll drafted (clock ▸ before.trans others.clock) (fun row member => ?_) OutboxEvent.merge_recovered
        (fun row member past clock now => ?_) (fun _ _ _ => nofun) fun past' w' => rest _ past' w' trivial)⟩
    · rw [(stale row member).1]
      nofun
    · obtain ⟨processing, claimed, since, old⟩ := stale row member
      exact .recovers t claimed processing since (by linarith) now
  · cases executed

theorem claimPendingEvents (limit : ℕ) : Does p n started (Outbox.claimPendingEvents limit) fun _ => True := by
  intro next past w closed rest
  refine .now closed fun w₀ w₁ _ closed t before w₂ others valid choice events w₃ executed => ?_
  rcases choice with _ | eventIds | _
  · cases executed
  · obtain ⟨drafted, due, valid', keeps, same, clock⟩ :=
      Drafted.select (.selectPending t limit) w₂ (closed.rely others) valid (fun _ _ => nofun) executed
    refine ⟨.frame nofun valid' keeps same, Safe.assoc (a := Outbox.flushAll (·.claimed t) events)
      (.editAll drafted (clock ▸ before.trans others.clock) (fun row member => ?_) (OutboxEvent.merge_claimed t)
        (fun row member past clock now => .claims t (due row member) now) (fun row member t' since => ?_)
        fun past' w' => rest _ past' w' trivial)⟩
    · rw [(due row member).1]
      nofun
    · cases since
      exact ⟨due row member, le_refl t, rfl⟩
  · cases executed

theorem flush {loaded edited : OutboxEvent} (marks : Marks loaded edited) :
    Does p n started (Outbox.flush loaded edited >>= fun _ => commit) fun _ => True := by
  intro next past w closed rest
  have rest' : ∀ past' w', Closed p past' w' → Safe p n started (next ()) past' w' := fun _ _ =>
      rest () _ _ trivial
  refine .assoc (a := Outbox.flush loaded edited) ?_
  unfold Outbox.flush
  split_ifs with unchanged
  · refine .commit (fun w₁ others _ eventId v drafted => ?_) (fun w₁ _ loaded edited w₂ t member => ?_)
      fun _ _ => rest' _ _
    · rw [(closed.rely others).drafts] at drafted
      cases drafted
    · exact absurd member (closed.updates loaded edited w₂)
  · refine .update (fun _ => trivial) fun w₁ row others valid seen => ?_
    have empty := (closed.rely others).drafts
    rw [Store.visible_of_drafts empty] at seen
    have own := valid.keyed _ _ seen
    refine .commit (fun w₂ others' _ eventId v drafted => ?_) (fun w₂ _ loaded' edited' w₃ t member since => ?_)
      fun _ _ => rest' _ _
    · rw [others'.events.drafts, Store.drafts_draft, empty] at drafted
      rcases Store.lookup_insert_cases drafted with ⟨rfl, rfl⟩ | ⟨_, absurd⟩
      · refine ⟨row, ?_, .marks loaded edited w₁ past rfl own.symm marks⟩
        rw [others'.events.rows _ (by exact Function.update_self ..)]
        exact seen
      · cases absurd
    · rcases mem_sinceCommit member with same | earlier
      · cases same
        rw [marks.claimedAt] at since
        cases since
      · exact absurd earlier (closed.updates loaded' edited' w₃)

theorem markPublished (loaded : OutboxEvent) : Does p n started (Outbox.markPublished loaded) (Marks loaded) :=
  bind now fun t _ => ret (.published t)

theorem markFailed (loaded : OutboxEvent) (error : String) :
    Does p n started (Outbox.markFailed loaded error) (Marks loaded) := by
  unfold Outbox.markFailed
  split_ifs with exhausted
  · exact ret (.failed (.gaveUp error exhausted))
  · exact bind now fun t _ => ret (.failed (.retried error t (not_le.1 exhausted)))

theorem markEvent (eventId : UUID) {mark : OutboxEvent → Code OutboxEvent}
    (marked : ∀ loaded, Does p n started (mark loaded) (Marks loaded)) :
    Does p n started (Outbox.markEvent eventId mark) fun _ => True := by
  refine bind (get eventId) fun row _ => ?_
  cases row with
  | none => exact ret trivial
  | some loaded => exact bind (marked loaded) fun edited marks => flush marks

theorem publish (event : OutboxEvent) : Does p n started (Outbox.publish event) fun _ => True := by
  refine bind (send _ _) fun sent _ => ?_
  cases sent with
  | error error => exact bind (markEvent _ (markFailed · error)) fun _ _ => ret trivial
  | ok => exact bind (markEvent _ markPublished) fun _ _ => ret trivial

theorem publishAll (events : List OutboxEvent) : Does p n started (Outbox.publishAll events) fun _ => True := by
  induction events with
  | nil => exact ret trivial
  | cons event events ih => exact bind (publish event) fun _ _ => bind ih fun _ _ => ret trivial

theorem processBatch (batchSize : ℕ) : Does p n started (Outbox.processBatch batchSize) fun _ => True :=
  bind (recoverStaleEvents batchSize) fun _ _ => bind (claimPendingEvents batchSize) fun events _ => publishAll events

end Does
def Unused (p : ℕ) (w : World) : Prop := w.events.drafts p = ∅

theorem World.Valid.tick {tick : Tick} (valid : w.Valid) (ticked : World.tick tick w = some w') :
    w'.Valid ∧ ∀ q, World.Rely q w w' := by
  cases tick with
  | elapse microseconds =>
    cases ticked
    exact ⟨⟨valid.store, valid.keyed, valid.draftKeyed⟩, fun q => ⟨.refl q _, by simp⟩⟩
  | post eventId aggregateId eventType payload createdAt =>
    simp only [World.tick] at ticked
    split_ifs at ticked with used
    cases ticked
    rw [not_or, not_not] at used
    refine ⟨⟨valid.store, fun id row stored => ?_, valid.draftKeyed⟩, fun q => ⟨.add used.2, le_refl _⟩⟩
    rcases Store.lookup_insert_cases stored with ⟨rfl, rfl⟩ | ⟨_, earlier⟩
    · rfl
    · exact valid.keyed id row earlier

theorem sound : contract.Sound (fun _ => True) Unused where
  rely_refl := World.Rely.refl
  rely_trans := World.Rely.trans
  ready_rely others unused := others.events.drafts.trans unused
  guar_inv _ guar := guar.valid
  guar_rely _ guar other := guar.others _ other
  close_inv valid := valid.finish
  close_rely _ other := ⟨.finish other, le_refl _⟩
  tick_inv valid ticked := (valid.tick ticked).1
  tick_rely valid ticked := (valid.tick ticked).2 _
  body_safe {p batchSize w} _ _ unused := by
    have closed : Closed p [] w := ⟨unused, fun _ _ _ => List.not_mem_nil⟩
    have safe : Safe p batchSize w (processBatch batchSize >>= .ret) [] w :=
      Does.processBatch batchSize closed fun _ _ _ _ _ => trivial
    rwa [Prog.bind_ret] at safe

variable {ok : State machine → Action machine → Prop} {s t : State machine}

theorem covers (opening : w.Opening) (runs : machine.Runs ok (machine.initial w) s) : contract.Covers Unused s :=
  sound.covers_runs (fun _ _ _ _ => trivial) (.initial opening.valid opening.store.drafts) runs

/-- A step leaves an event as it is or is the commit of a move. -/
theorem stored_of_step {a : Action machine} (covered : contract.Covers Unused s) (stepped : machine.step s a = some t)
    {eventId : UUID} {row : OutboxEvent} (stored : s.world.events.rows.lookup eventId = some row) :
    t.world.events.rows.lookup eventId = some row ∨ ∃ p choice proc row', a = .step p choice ∧
      s.procs p = some proc ∧ proc.rest.head = some .commit ∧ t.world.events.rows.lookup eventId = some row' ∧
      Moves proc.past s.world.clock row row' := by
  rcases Machine.step_cases stepped with ⟨p, request, rfl, fresh, rfl⟩ |
    ⟨p, choice, proc, stmt, next, result, w', rfl, found, rest, executed, rfl⟩ |
    ⟨p, proc, rfl, found, running, rfl⟩ | ⟨p, proc, rfl, found, finished, rfl⟩ | ⟨e, w', rfl, ticked, rfl⟩
  · exact .inl stored
  · have guar := (sound.guar_of_step covered found rest executed).1
    by_cases commits : proc.rest.head = some .commit
    · rcases guar.moves eventId with same | ⟨row₁, row', stored', moved, moves⟩
      · exact .inl (same.trans stored)
      · cases stored.symm.trans stored'
        exact .inr ⟨p, choice, proc, row', rfl, found, commits, moved, moves⟩
    · exact .inl ((congrArg (AList.lookup eventId) (guar.quiet commits)).trans stored)
  · exact .inl stored
  · exact .inl stored
  · cases e with
    | elapse microseconds =>
      cases ticked
      exact .inl stored
    | post id aggregateId eventType payload createdAt =>
      have ticked : World.tick (.post id aggregateId eventType payload createdAt) s.world = some w' := ticked
      simp only [World.tick] at ticked
      split_ifs at ticked with used
      cases ticked
      rw [not_or] at used
      have other : eventId ≠ id := by
        rintro rfl
        exact used.1 (AList.lookup_isSome.1 (by rw [stored]; rfl))
      exact .inl ((AList.lookup_insert_ne other).trans stored)

/-- The action is the commit of a session that has marked a failed send. -/
def CommitsFailure (s : State machine) (a : Action machine) (p : ℕ) (loaded edited : OutboxEvent) : Prop :=
  ∃ choice proc w earlier, a = .step p choice ∧ s.procs p = some proc ∧ proc.rest.head = some .commit ∧
    proc.past = (.update loaded edited, w) :: earlier ∧ Fails loaded edited

/-! A small outbox for the examples: one event, nothing claimed. -/

def posted : OutboxEvent := createOutboxEvent 5 4 "DEPOSIT_POSTED" (.obj []) 0

def outbox : World where
  events := { rows := AList.singleton 5 posted, drafts := fun _ => ∅, locks := fun _ => none }
  clock := 0
  log := []

theorem outbox_opening : outbox.Opening where
  store := ⟨fun _ => rfl, fun _ => rfl⟩
  keyed eventId row stored := by
    have member := AList.mem_keys.1 (AList.lookup_isSome.1
        (show (outbox.events.rows.lookup eventId).isSome by rw [stored]; rfl))
    obtain rfl : eventId = 5 := by simpa [outbox] using member
    cases stored
    rfl

def claim (p : ℕ) : List (Action machine) :=
  [.start p (100 : ℕ), .step p .proceed, .step p (.order []), .step p .proceed, .step p .proceed,
    .step p (.order [5]), .step p .proceed, .step p .proceed]

def recoverAndClaim (p : ℕ) : List (Action machine) :=
  [.start p (100 : ℕ), .step p .proceed, .step p (.order [5]), .step p .proceed, .step p .proceed, .step p .proceed,
    .step p (.order [5]), .step p .proceed, .step p .proceed]

def succeed (p : ℕ) : List (Action machine) :=
  [.step p .proceed, .step p .proceed, .step p .proceed, .step p .proceed, .step p .proceed]

def fail (p : ℕ) : List (Action machine) :=
  [.step p (.sendFails "timeout" false), .step p .proceed, .step p .proceed, .step p .proceed, .step p .proceed]

def statusOf (eventId : UUID) (s : State machine) : Option OutboxStatus :=
  ((s.world : World).events.rows.lookup eventId).map (·.status)

end LedgerFlow.Outbox
