import Mathlib.Data.List.Count
import Mathlib.Data.List.Perm.Basic
import Mathlib.Data.List.Sort

/-! Reading a sorted table page by page when the sort key is not total: each page is cut out of an arrangement of its
own, and rows of one key may change places between two pages. -/

namespace LedgerFlow.Paging

variable {α κ : Type} [LinearOrder κ] {key : α → κ} {rows first second : List α}
  {n size page : ℕ} {a b : α}

/-- The rows by descending key; rows of one key stand in any order. -/
structure Arranged (key : α → κ) (rows arranged : List α) : Prop where
  perm : arranged.Perm rows
  descending : arranged.Pairwise fun a b => key b ≤ key a

/-- The position is inside a group of rows of one key that are not all the same. -/
def TieAt (key : α → κ) (rows : List α) (n : ℕ) : Prop :=
  ∃ a ∈ rows, ∃ b ∈ rows, a ≠ b ∧ key a = key b ∧
    rows.countP (key a < key ·) < n ∧ n < rows.countP (key a ≤ key ·)

instance [DecidableEq α] : Decidable (TieAt key rows n) :=
  inferInstanceAs (Decidable (∃ a ∈ rows, ∃ b ∈ rows, a ≠ b ∧ key a = key b ∧
    rows.countP (key a < key ·) < n ∧ n < rows.countP (key a ≤ key ·)))

theorem not_tieAt_of_nodup (distinct : (rows.map key).Nodup) : ¬TieAt key rows n := by
  rintro ⟨a, member, b, member', different, tied, _⟩
  exact different (List.inj_on_of_nodup_map distinct member member' tied)

theorem split_countP {p : α → Bool} {l : List α} (closed : l.Pairwise fun a b => p b → p a) :
    l.take (l.countP p) = l.filter p ∧ l.drop (l.countP p) = l.filter (!p ·) := by
  induction l with
  | nil => simp
  | cons a l ih =>
    obtain ⟨below, rest⟩ := List.pairwise_cons.1 closed
    obtain ⟨front, back⟩ := ih rest
    by_cases holds : p a
    · simp [holds, front, back]
    · have none : ∀ b ∈ l, ¬p b := fun b member hb => holds (below b member hb)
      have zero : l.countP p = 0 := List.countP_eq_zero.2 none
      have nothing : l.filter p = [] := List.filter_eq_nil_iff.2 none
      have all : l.filter (!p ·) = l := List.filter_eq_self.2 (by simpa using none)
      simp [holds, zero, nothing, all]

namespace Arranged
variable (arranged : Arranged key rows first)
include arranged

theorem split_lt (c : κ) : first.take (rows.countP (c < key ·)) = first.filter (c < key ·) ∧
    first.drop (rows.countP (c < key ·)) = first.filter (key · ≤ c) := by
  have closed : first.Pairwise fun a b => decide (c < key b) = true → decide (c < key a) = true := by
    refine arranged.descending.imp fun {a b} lower above => ?_
    simp only [decide_eq_true_eq] at above ⊢
    exact above.trans_le lower
  obtain ⟨front, back⟩ := split_countP closed
  rw [← arranged.perm.countP_eq]
  exact ⟨front, back.trans (List.filter_congr fun b _ => by rw [← decide_not, decide_eq_decide, not_lt])⟩

theorem split_le (c : κ) : first.take (rows.countP (c ≤ key ·)) = first.filter (c ≤ key ·) ∧
    first.drop (rows.countP (c ≤ key ·)) = first.filter (key · < c) := by
  have closed : first.Pairwise fun a b => decide (c ≤ key b) = true → decide (c ≤ key a) = true := by
    refine arranged.descending.imp fun {a b} lower above => ?_
    simp only [decide_eq_true_eq] at above ⊢
    exact above.trans lower
  obtain ⟨front, back⟩ := split_countP closed
  rw [← arranged.perm.countP_eq]
  exact ⟨front, back.trans (List.filter_congr fun b _ => by rw [← decide_not, decide_eq_decide, not_le])⟩

/-- Where no tie lies across a position, it is settled how often a row stands before it. -/
theorem count_take [DecidableEq α] (untied : ¬TieAt key rows n) (member : a ∈ rows) : (first.take n).count a =
    if rows.countP (key a ≤ key ·) ≤ n then rows.count a else n - rows.countP (key a < key ·) := by
  obtain ⟨front, back⟩ := arranged.split_lt (key a)
  obtain ⟨front', back'⟩ := arranged.split_le (key a)
  split_ifs with past
  · have absent : a ∉ first.drop n := by
      intro listed
      have beyond := (List.drop_subset_drop_left first past) listed
      rw [back'] at beyond
      simp at beyond
    have whole := congrArg (List.count a) (List.take_append_drop n first)
    rw [List.count_append, List.count_eq_zero.2 absent, Nat.add_zero] at whole
    rw [whole, arranged.perm.count_eq]
  · have early : (first.take (rows.countP (key a < key ·))).count a = 0 := by
      rw [front]
      exact List.count_eq_zero.2 (by simp)
    rcases le_or_gt n (rows.countP (key a < key ·)) with before | inside
    · have fewer := (List.take_subset_take_left first before)
      rw [Nat.sub_eq_zero_of_le before]
      exact List.count_eq_zero.2 fun listed => List.count_eq_zero.1 early (fewer listed)
    · have later : rows.countP (key a < key ·) + (n - rows.countP (key a < key ·)) = n := by omega
      -- between the two positions there is no row but `a`
      have same : ∀ b ∈ (first.drop (rows.countP (key a < key ·))).take (n - rows.countP (key a < key ·)),
          a = b := by
        intro b listed
        by_contra different
        have low : b ∈ first.filter (key · ≤ key a) := back ▸ List.mem_of_mem_take listed
        have high : b ∈ first.filter (key a ≤ key ·) := by
          rw [← front']
          rw [← List.drop_take] at listed
          exact (List.take_subset_take_left first (by omega)) (List.mem_of_mem_drop listed)
        simp only [List.mem_filter, decide_eq_true_eq] at low high
        exact untied ⟨a, member, b, arranged.perm.subset low.1, different, le_antisymm high.2 low.2,
          inside, by omega⟩
      have bound : rows.countP (key a ≤ key ·) ≤ first.length :=
        arranged.perm.length_eq ▸ List.countP_le_length
      rw [← later, List.take_add, List.count_append, early, Nat.zero_add, List.count_eq_length.2 same,
        List.length_take, List.length_drop]
      omega

omit arranged in
theorem take_perm (arranged : Arranged key rows first) (arranged' : Arranged key rows second)
    (untied : ¬TieAt key rows n) : (first.take n).Perm (second.take n) := by
  classical
  apply List.perm_iff_count.2
  intro a
  by_cases member : a ∈ rows
  · rw [arranged.count_take untied member, arranged'.count_take untied member]
  · have absent : a ∉ first := fun listed => member (arranged.perm.subset listed)
    have absent' : a ∉ second := fun listed => member (arranged'.perm.subset listed)
    rw [List.count_eq_zero.2 fun listed => absent (List.mem_of_mem_take listed),
      List.count_eq_zero.2 fun listed => absent' (List.mem_of_mem_take listed)]

omit arranged in
theorem drop_perm (arranged : Arranged key rows first) (arranged' : Arranged key rows second)
    (untied : ¬TieAt key rows n) : (first.drop n).Perm (second.drop n) := by
  have whole : (first.take n ++ first.drop n).Perm (first.take n ++ second.drop n) := by
    calc
      first.take n ++ first.drop n = first := List.take_append_drop n first
      List.Perm _ second := arranged.perm.trans arranged'.perm.symm
      _ = second.take n ++ second.drop n := (List.take_append_drop n second).symm
      List.Perm _ (first.take n ++ second.drop n) := (take_perm arranged' arranged untied).append_right _
  exact (List.perm_append_left_iff _).1 whole

omit arranged in
theorem swap {front back : List α} (arranged : Arranged key rows (front ++ a :: b :: back)) (tied : key a = key b) :
    Arranged key rows (front ++ b :: a :: back) where
  perm := ((List.Perm.swap a b back).append_left front).trans arranged.perm
  descending := by
    have sorted := arranged.descending
    simp only [List.pairwise_append, List.pairwise_cons, List.mem_cons] at sorted ⊢
    grind

end Arranged

theorem groups_perm (l : List α) (c : κ) :
    (l.filter (c < key ·) ++ (l.filter (key · = c) ++ l.filter (key · < c))).Perm l := by
  have inner := List.filter_append_perm (fun x => decide (key x = c)) (l.filter fun x => !decide (c < key x))
  rw [List.filter_filter, List.filter_filter] at inner
  have same : l.filter (fun x => decide (key x = c) && !decide (c < key x)) = l.filter (key · = c) := by
    apply List.filter_congr
    intro x _
    by_cases equal : key x = c <;> simp [equal]
  have smaller : l.filter (fun x => !decide (key x = c) && !decide (c < key x)) = l.filter (key · < c) := by
    apply List.filter_congr
    intro x _
    rcases lt_trichotomy (key x) c with below | equal | above
    · simp [below, below.ne, below.le]
    · simp [equal]
    · simp [above, above.le]
  rw [same, smaller] at inner
  exact (inner.append_left _).trans (List.filter_append_perm (fun x => decide (c < key x)) l)

theorem Arranged.reorder (arranged : Arranged key rows first) {c : κ} {group : List α}
    (same : group.Perm (first.filter (key · = c))) :
    Arranged key rows (first.filter (c < key ·) ++ (group ++ first.filter (key · < c))) where
  perm := (((same.append_right _).append_left _).trans (groups_perm first c)).trans arranged.perm
  descending := by
    have equal : ∀ x ∈ group, key x = c := fun x listed =>
        of_decide_eq_true (List.mem_filter.1 (same.subset listed)).2
    have smaller : ∀ x ∈ first.filter (key · < c), key x < c := fun x listed =>
        of_decide_eq_true (List.mem_filter.1 listed).2
    have larger : ∀ x ∈ first.filter (c < key ·), c < key x := fun x listed =>
        of_decide_eq_true (List.mem_filter.1 listed).2
    apply List.pairwise_append.2
    refine ⟨arranged.descending.filter _, List.pairwise_append.2 ⟨?_, arranged.descending.filter _, ?_⟩, ?_⟩
    · exact List.pairwise_of_forall_mem_list fun x listed y listed' =>
        ((equal y listed').trans (equal x listed).symm).le
    · intro x listed y below
      rw [equal x listed]
      exact (smaller y below).le
    · intro x above y listed
      rcases List.mem_append.1 listed with listed | below
      · exact (equal y listed).trans_le (larger x above).le
      · exact ((smaller y below).trans (larger x above)).le

/-- A tie across a position: some arrangement has two different rows of one key on the two sides of it. -/
theorem exists_of_tie (tie : TieAt key rows n) : ∃ front a b back, a ≠ b ∧ key a = key b ∧
    front.length + 1 = n ∧ Arranged key rows (front ++ a :: b :: back) := by
  classical
  obtain ⟨a, member, b, member', different, tied, low, high⟩ := tie
  obtain ⟨sorted, arranged⟩ : ∃ sorted, Arranged key rows sorted :=
    ⟨rows.insertionSort fun a b => key b ≤ key a, List.perm_insertionSort .., List.pairwise_insertionSort ..⟩
  -- the group of the two rows, without them
  obtain ⟨others, group⟩ : ∃ others, (a :: b :: others).Perm (sorted.filter (key · = key a)) := by
    have listed : a ∈ sorted.filter (key · = key a) := by simp [arranged.perm.mem_iff, member]
    have listed' : b ∈ (sorted.filter (key · = key a)).erase a := by
      rw [List.mem_erase_of_ne (Ne.symm different)]
      simp [arranged.perm.mem_iff, member', tied]
    exact ⟨_, ((List.perm_cons_erase listed').cons a).symm.trans (List.perm_cons_erase listed).symm⟩
  have before : (sorted.filter (key a < key ·)).length = rows.countP (key a < key ·) := by
    rw [← List.countP_eq_length_filter, arranged.perm.countP_eq]
  have upTo : rows.countP (key a ≤ key ·) = rows.countP (key a < key ·) + (others.length + 2) := by
    have larger : (sorted.filter (key a < key ·)).countP (key a ≤ key ·) =
        (sorted.filter (key a < key ·)).length :=
      List.countP_eq_length.2 fun x listed => by simpa using (of_decide_eq_true (List.mem_filter.1 listed).2).le
    have equal : (sorted.filter (key · = key a)).countP (key a ≤ key ·) =
        (sorted.filter (key · = key a)).length :=
      List.countP_eq_length.2 fun x listed => by simpa using (of_decide_eq_true (List.mem_filter.1 listed).2).ge
    have smaller : (sorted.filter (key · < key a)).countP (key a ≤ key ·) = 0 :=
      List.countP_eq_zero.2 fun x listed => by simpa using of_decide_eq_true (List.mem_filter.1 listed).2
    rw [← arranged.perm.countP_eq, ← (groups_perm sorted (key a)).countP_eq, List.countP_append,
      List.countP_append, larger, equal, smaller, before, ← group.length_eq]
    rfl
  obtain ⟨k, within, rfl⟩ : ∃ k ≤ others.length, n = rows.countP (key a < key ·) + k + 1 :=
    ⟨n - 1 - rows.countP (key a < key ·), by omega, by omega⟩
  have around : (others.take k ++ a :: b :: others.drop k).Perm (sorted.filter (key · = key a)) := by
    calc
      List.Perm _ (a :: (others.take k ++ b :: others.drop k)) := List.perm_middle
      List.Perm _ (a :: b :: (others.take k ++ others.drop k)) := List.perm_middle.cons a
      _ = a :: b :: others := by rw [List.take_append_drop]
      List.Perm _ _ := group
  refine ⟨sorted.filter (key a < key ·) ++ others.take k, a, b,
    others.drop k ++ sorted.filter (key · < key a), different, tied, ?_, by simpa using arranged.reorder around⟩
  rw [List.length_append, before, List.length_take, Nat.min_eq_left within]

/-- What comes of reading page after page until one is short, where the rows are arranged anew for each page. -/
inductive Reads (arrange : ℕ → List α) (size : ℕ) : ℕ → List α → Prop where
  | short {page : ℕ} (short : (((arrange page).drop (page * size)).take size).length < size) :
      Reads arrange size page (((arrange page).drop (page * size)).take size)
  | full {page : ℕ} {rest : List α} (full : ¬(((arrange page).drop (page * size)).take size).length < size)
      (next : Reads arrange size (page + 1) rest) :
      Reads arrange size page (((arrange page).drop (page * size)).take size ++ rest)

theorem page_append (l : List α) (page size : ℕ) :
    (l.drop (page * size)).take size ++ l.drop ((page + 1) * size) = l.drop (page * size) := by
  rw [Nat.succ_mul, ← List.drop_drop, List.take_append_drop]

namespace Reads
variable {arrange : ℕ → List α} {all rest : List α}

theorem ends (positive : 0 < size) (bounded : ∀ page, (arrange page).length ≤ n) (page : ℕ) :
    ∃ all, Reads arrange size page all := by
  suffices more : ∀ more page, n < (page + more) * size → ∃ all, Reads arrange size page all by
    apply more (n + 1)
    calc
      n < page + (n + 1) := by omega
      _ ≤ (page + (n + 1)) * size := Nat.le_mul_of_pos_right _ positive
  intro more
  induction more with
  | zero =>
    intro page past
    refine ⟨_, .short ?_⟩
    have within := bounded page
    rw [List.length_take, List.length_drop]
    rw [Nat.add_zero] at past
    omega
  | succ more ih =>
    intro page past
    by_cases short : (((arrange page).drop (page * size)).take size).length < size
    · exact ⟨_, .short short⟩
    · obtain ⟨rest, next⟩ := ih (page + 1) (by rwa [Nat.add_assoc, Nat.add_comm 1])
      exact ⟨_, .full short next⟩

/-- Where no page ends inside a tie, the pages from one on are the rows from there on. -/
theorem perm (reads : Reads arrange size page all) (untied : ∀ page, ¬TieAt key rows (page * size))
    (sorted : ∀ page, Arranged key rows (arrange page)) (arranged : Arranged key rows first) :
    all.Perm (first.drop (page * size)) := by
  induction reads generalizing first with
  | @short page short =>
    have last : ((arrange page).drop (page * size)).take size = (arrange page).drop (page * size) := by
      apply List.take_of_length_le
      rw [List.length_take] at short
      omega
    rw [last]
    exact (sorted page).drop_perm arranged (untied page)
  | @full page rest full next ih =>
    calc
      List.Perm (((arrange page).drop (page * size)).take size ++ rest)
        (((arrange page).drop (page * size)).take size ++ (arrange page).drop ((page + 1) * size)) :=
          (ih (sorted page)).append_left _
      _ = (arrange page).drop (page * size) := page_append ..
      List.Perm _ (first.drop (page * size)) := (sorted page).drop_perm arranged (untied page)

theorem alike (reads : Reads arrange size page all) (same : ∀ later, page ≤ later → arrange later = first) :
    all = first.drop (page * size) := by
  induction reads with
  | @short page short =>
    rw [same page le_rfl] at short ⊢
    apply List.take_of_length_le
    rw [List.length_take] at short
    omega
  | @full page rest full next ih =>
    rw [ih fun later above => same later (Nat.le_of_succ_le above), same page le_rfl, page_append]

theorem before (reads : Reads arrange size 0 all) (same : ∀ earlier, earlier < page → arrange earlier = first)
    (within : page * size ≤ first.length) : ∃ rest, Reads arrange size page rest ∧
    all = first.take (page * size) ++ rest := by
  induction page with
  | zero => exact ⟨all, reads, by simp⟩
  | succ page ih =>
    rw [Nat.succ_mul] at within
    obtain ⟨rest, later, rfl⟩ := ih (fun earlier below => same earlier (Nat.lt_succ_of_lt below)) (by omega)
    have enough : ¬((first.drop (page * size)).take size).length < size := by
      rw [List.length_take, List.length_drop]
      omega
    cases later with
    | short short =>
      rw [same page (Nat.lt_succ_self page)] at short
      exact absurd short enough
    | full _ next =>
      refine ⟨_, next, ?_⟩
      rw [same page (Nat.lt_succ_self page), ← List.append_assoc, ← List.take_add, Nat.succ_mul]

end Reads

/-- Reading page by page comes to every row exactly once, however the rows are arranged
for each page, just if no page ends inside a tie. -/
theorem reads_iff (positive : 0 < size) :
    (∀ arrange, (∀ page, Arranged key rows (arrange page)) → ∀ all, Reads arrange size 0 all →
      all.Perm rows) ↔ ∀ page, ¬TieAt key rows (page * size) := by
  constructor
  · intro whole page tie
    obtain ⟨front, a, b, back, different, tied, length, arranged⟩ := exists_of_tie tie
    have swapped := arranged.swap tied
    -- the two neighbours change places for the page that begins between them
    have sorted : ∀ k, Arranged key rows
        (if k = page then front ++ b :: a :: back else front ++ a :: b :: back) := by
      intro k
      split_ifs
      · exact swapped
      · exact arranged
    obtain ⟨all, reads⟩ := Reads.ends positive (fun k => (sorted k).perm.length_eq.le) 0
    have within : page * size ≤ (front ++ a :: b :: back).length := by
      simp
      omega
    obtain ⟨rest, reads', rfl⟩ := reads.before (fun earlier below => if_neg below.ne) within
    have start : (front ++ b :: a :: back).drop (page * size) = a :: back := by
      rw [← length, List.drop_length_add_append]
      rfl
    have follow : (front ++ a :: b :: back).drop ((page + 1) * size) = (a :: back).drop size := by
      obtain ⟨less, rfl⟩ := Nat.exists_eq_add_one.2 positive
      rw [Nat.succ_mul, ← List.drop_drop, ← length, List.drop_length_add_append]
      rfl
    have repeats : rest = a :: back := by
      cases reads' with
      | short short =>
        rw [if_pos rfl, start] at short ⊢
        apply List.take_of_length_le
        rw [List.length_take] at short
        omega
      | full _ next =>
        rw [next.alike fun later above => if_neg (Nat.lt_of_succ_le above).ne', follow, if_pos rfl, start,
          List.take_append_drop]
    have taken : (front ++ a :: b :: back).take (page * size) = front ++ [a] := by
      rw [← length, List.take_length_add_append]
      rfl
    have twice := (whole _ sorted _ reads).trans arranged.perm.symm
    rw [repeats, taken, List.append_assoc, List.perm_append_left_iff] at twice
    have missing := (List.perm_cons a).1 twice
    classical
    have counts := missing.count_eq b
    simp [different] at counts
  · intro untied arrange sorted all reads
    have same := reads.perm untied sorted (sorted 0)
    rw [Nat.zero_mul, List.drop_zero] at same
    exact same.trans (sorted 0).perm

end LedgerFlow.Paging
