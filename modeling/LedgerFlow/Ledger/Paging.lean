import LedgerFlow.Common.Paging
import LedgerFlow.Ledger.History

/-! The transaction history of an account, read page by page. -/

namespace LedgerFlow.Ledger
open Accounts Outbox Concurrency

/-- What a client has when it reads page after page until one is short; each query has
an order of its own for the rows of one time. -/
inductive ReadsPages (orders : ℕ → HistoryOrder) (p : ℕ) (x : UUID) (limit : ℕ) (w : World) : ℕ →
    List HistoryRow → Prop where
  | short {page : ℕ} {rows : List HistoryRow}
      (read : getTransactionHistory (orders page) p x limit (page * limit) w = .ok rows)
        (short : rows.length < limit) :
      ReadsPages orders p x limit w page rows
  | full {page : ℕ} {rows rest : List HistoryRow}
      (read : getTransactionHistory (orders page) p x limit (page * limit) w = .ok rows)
        (full : ¬rows.length < limit)
      (next : ReadsPages orders p x limit w (page + 1) rest) : ReadsPages orders p x limit w page (rows ++ rest)

/-- The rows show every entry of the account exactly once. -/
def ShownOnce (db : Tables) (x : UUID) (rows : List HistoryRow) : Prop :=
  ∃ entries, (db.entries.filter (·.accountId = x)).Perm entries ∧ List.Forall₂ (·.ShownBy db) entries rows

structure PagesOnce (p : ℕ) (x : UUID) (limit : ℕ) (w : World) : Prop where
  ends : ∀ orders, ∃ rows, ReadsPages orders p x limit w 0 rows
  once : ∀ orders rows, ReadsPages orders p x limit w 0 rows → ShownOnce w.db x rows

def SplitsTie (db : Tables) (x : UUID) (limit : ℕ) : Prop :=
  ∃ page, Paging.TieAt (fun row : HistoryRow => row.1.createdAt) (db.history x) (page * limit)

variable {env : Deployment} {db : Tables} {w : World} {s : State (machine env)} {p limit page : ℕ} {x : UUID}
  {orders : ℕ → HistoryOrder} {rows : List HistoryRow}

namespace HistoryOrder

theorem arranged (order : HistoryOrder) (rows : List HistoryRow) :
    Paging.Arranged (fun row : HistoryRow => row.1.createdAt) rows (order.arrange rows) :=
  ⟨order.perm rows, order.newestFirst rows⟩

def of {rows arranged : List HistoryRow}
    (sorted : Paging.Arranged (fun row : HistoryRow => row.1.createdAt) rows arranged) :
    HistoryOrder where
  arrange other := if other = rows then arranged else stableOrder.arrange other
  perm other := by
    split_ifs with same
    · exact same ▸ sorted.perm
    · exact stableOrder.perm other
  newestFirst other := by
    split_ifs
    · exact sorted.descending
    · exact stableOrder.newestFirst other

theorem of_arrange {rows arranged : List HistoryRow}
    (sorted : Paging.Arranged (fun row : HistoryRow => row.1.createdAt) rows arranged) :
    (of sorted).arrange rows = arranged :=
  if_pos rfl

end HistoryOrder

theorem Tables.Consistent.shown_unique (consistent : db.Consistent) :
    Relator.RightUnique fun (entry : LedgerEntry) (row : HistoryRow) => entry.ShownBy db row := by
  intro entry row row' shows shows'
  have same := consistent.transaction_unique shows.member shows'.member (shows.owner.trans shows'.owner.symm)
  exact Prod.ext same (shows.amount.trans shows'.amount.symm)

theorem shownOnce_iff (consistent : db.Consistent) : ShownOnce db x rows ↔ rows.Perm (db.history x) := by
  have history := consistent.history_shows x
  constructor
  · rintro ⟨entries, perm, shown⟩
    obtain ⟨rows', shown', perm'⟩ : Relation.Comp (List.Forall₂ (·.ShownBy db)) List.Perm entries
      (db.history x) := by
      rw [List.forall₂_comp_perm_eq_perm_comp_forall₂]
      exact ⟨_, perm.symm, history⟩
    rwa [consistent.shown_unique.forall₂ shown shown']
  · intro perm
    have shown : Relation.Comp (List.Forall₂ (·.ShownBy db)) List.Perm
        (db.entries.filter (·.accountId = x)) rows :=
      ⟨_, history, perm.symm⟩
    rwa [List.forall₂_comp_perm_eq_perm_comp_forall₂] at shown

theorem readsPages_iff {account : Account} (unused : w.sessions p = {})
    (found : w.db.accounts.filter (·.accountId = x) = [account]) : ReadsPages orders p x limit w page rows ↔
      Paging.Reads (fun page => (orders page).arrange (w.db.history x)) limit page rows := by
  constructor
  · intro reads
    induction reads with
    | short read short =>
      rw [getTransactionHistory_eq unused found] at read
      cases read
      exact .short short
    | full read full _ ih =>
      rw [getTransactionHistory_eq unused found] at read
      cases read
      exact .full full ih
  · intro reads
    induction reads with
    | short short => exact .short (getTransactionHistory_eq unused found ..) short
    | full full _ ih => exact .full (getTransactionHistory_eq unused found ..) full ih

theorem pagesOnce_iff {account : Account} (unused : w.sessions p = {})
    (found : w.db.accounts.filter (·.accountId = x) = [account]) (consistent : w.db.Consistent)
    (positive : 0 < limit) :
    PagesOnce p x limit w ↔ ¬SplitsTie w.db x limit := by
  rw [SplitsTie, not_exists, ← Paging.reads_iff positive]
  constructor
  · intro once arrange sorted all reads
    apply (shownOnce_iff consistent).1
    apply once.once fun page => .of (sorted page)
    rw [readsPages_iff unused found]
    simpa only [HistoryOrder.of_arrange] using reads
  · intro whole
    refine ⟨fun orders => ?_, fun orders rows reads => ?_⟩
    · obtain ⟨rows, reads⟩ := Paging.Reads.ends positive
        (fun page => ((orders page).perm (w.db.history x)).length_eq.le) 0
      exact ⟨rows, (readsPages_iff unused found).2 reads⟩
    · apply (shownOnce_iff consistent).2
      exact whole _ (fun page => (orders page).arranged _) rows ((readsPages_iff unused found).1 reads)

/-- In every state of every interleaving: the pages of an existing account have every entry exactly once, just
if no page ends inside a tie. -/
theorem pages_once_iff (opening : w.Opening)
    (runs : (machine env).Runs (machine env).anything ((machine env).initial w) s) (idle : s.procs p = none)
    (account : x ∈ s.world.db.accounts.map (·.accountId)) (positive : 0 < limit) :
    PagesOnce p x limit s.world ↔ ¬SplitsTie s.world.db x limit := by
  obtain ⟨unused, consistent, row, found⟩ := readable_of_runs opening runs idle account
  exact pagesOnce_iff unused found consistent positive

def readable (s : State (machine sample)) : Bool × Bool :=
  ((s.procs 1).isNone, decide (2 ∈ (s.world : World).db.accounts.map (·.accountId)))

/-- A deposit one microsecond after Alice's first one, and pages of one row. -/
theorem pages_once_sample : ∃ s : State (machine sample),
    (s.world : World).db.amounts 2 = [⟨10000, by decide⟩, ⟨100, by decide⟩] ∧ PagesOnce 1 2 1 s.world := by
  have executed : ((machine sample).run (fun _ _ => true) ((machine sample).initial bank)
      ([.tick (1 : ℕ)] ++ deposit 0 oneRupee)).map (fun s => (readable s, (s.world : World).db.amounts 2,
        decide (((s.world : World).db.history 2).map (·.1.createdAt)).Nodup)) =
          some ((true, true), [⟨10000, by decide⟩, ⟨100, by decide⟩], true) := by
    decide +kernel
  obtain ⟨s, runs, observed⟩ := Machine.Runs.of_observed _ (fun _ _ _ => trivial) executed
  simp only [Prod.mk.injEq, readable, decide_eq_true_eq, Option.isNone_iff_eq_none] at observed
  obtain ⟨⟨idle, account⟩, amounts, distinct⟩ := observed
  refine ⟨s, amounts, (pages_once_iff bank_opening runs idle account one_pos).2 ?_⟩
  rintro ⟨page, tie⟩
  exact Paging.not_tieAt_of_nodup distinct tie

/-- Alice's two deposits bear one time, and she reads one row a page. -/
theorem not_pages_once : ¬∀ (s : State (machine sample)) (p : ℕ) (x : UUID) (limit : ℕ),
    (machine sample).Runs (machine sample).anything ((machine sample).initial bank) s → s.procs p = none →
      x ∈ s.world.db.accounts.map (·.accountId) → 0 < limit → PagesOnce p x limit s.world := by
  intro all
  have executed : ((machine sample).run (fun _ _ => true) ((machine sample).initial bank) (deposit 0 oneRupee)).map
      (fun s => (readable s, decide (Paging.TieAt (fun row : HistoryRow => row.1.createdAt)
        ((s.world : World).db.history 2) (1 * 1)))) = some ((true, true), true) := by
    decide +kernel
  obtain ⟨s, runs, observed⟩ := Machine.Runs.of_observed _ (fun _ _ _ => trivial) executed
  simp only [Prod.mk.injEq, readable, decide_eq_true_eq, Option.isNone_iff_eq_none] at observed
  obtain ⟨⟨idle, account⟩, tie⟩ := observed
  obtain ⟨unused, consistent, row, found⟩ := readable_of_runs bank_opening runs idle account
  exact (pagesOnce_iff unused found consistent one_pos).1 (all s 1 2 1 runs idle account one_pos) ⟨1, tie⟩

end LedgerFlow.Ledger
