import Mathlib.Data.List.AList
import Mathlib.Logic.Function.Basic

/-! Tables under row locks. A session drafts new rows while it holds their locks; its commit puts the
drafts in the place of the rows, and its end gives up drafts and locks. -/

namespace Concurrency

structure Store (K V : Type) [DecidableEq K] where
  rows : AList fun _ : K => V
  drafts : ℕ → AList fun _ : K => V
  locks : K → Option ℕ

namespace Store
variable {K V : Type} [DecidableEq K]

/-- The row as session `p` sees it: its own draft, or what is committed. -/
def visible (p : ℕ) (k : K) (s : Store K V) : Option V := (s.drafts p ∪ s.rows).lookup k

def Free (p : ℕ) (k : K) (s : Store K V) : Prop := ∀ q ∈ s.locks k, q = p

instance (p : ℕ) (k : K) (s : Store K V) : Decidable (s.Free p k) :=
  inferInstanceAs (Decidable (∀ q ∈ s.locks k, q = p))

def lockAll (p : ℕ) (ks : List K) (s : Store K V) : Store K V :=
  { s with locks := fun k => if k ∈ ks then some p else s.locks k }

def draft (p : ℕ) (k : K) (v : V) (s : Store K V) : Store K V :=
  { s with
    drafts := Function.update s.drafts p ((s.drafts p).insert k v)
    locks := Function.update s.locks k (some p) }

def finish (p : ℕ) (s : Store K V) : Store K V :=
  { s with
    drafts := Function.update s.drafts p ∅
    locks := fun k => if s.locks k = some p then none else s.locks k }

def commit (p : ℕ) (s : Store K V) : Store K V := { s with rows := s.drafts p ∪ s.rows }.finish p

def add (k : K) (v : V) (s : Store K V) : Store K V := { s with rows := s.rows.insert k v }

structure Opening (s : Store K V) : Prop where
  drafts : ∀ p, s.drafts p = ∅
  locks : ∀ k, s.locks k = none

/-- Every draft is locked by its session. -/
def Valid (s : Store K V) : Prop := ∀ p k, k ∈ s.drafts p → s.locks k = some p

/-- What the other sessions leave to session `p`: its drafts, its locks and the rows that it has locked. -/
structure Kept (p : ℕ) (s s' : Store K V) : Prop where
  drafts : s'.drafts p = s.drafts p
  locks : ∀ k, s.locks k = some p → s'.locks k = some p
  rows : ∀ k, s.locks k = some p → s'.rows.lookup k = s.rows.lookup k

variable {p q : ℕ} {k : K} {v : V} {s s' s'' : Store K V}

theorem Free.of_unlocked (unlocked : s.locks k = none) : s.Free p k := by
  intro q holder
  rw [unlocked] at holder
  cases holder

theorem Free.not_locked (free : s.Free p k) (other : q ≠ p) : s.locks k ≠ some q :=
  fun locked => other (free q locked)

theorem Free.lockAll (free : s.Free p k) (ks : List K) : (s.lockAll p ks).Free p k := by
  intro q holder
  by_cases member : k ∈ ks
  · exact (Option.some.inj ((if_pos member).symm.trans holder)).symm
  · exact free q ((if_neg member).symm.trans holder)

theorem Free.draft {l : K} (free : s.Free p l) : (s.draft p k v).Free p l := by
  intro q holder
  have locked : Function.update s.locks k (some p) l = some q := holder
  by_cases same : l = k
  · subst same
    rw [Function.update_self] at locked
    exact (Option.some.inj locked).symm
  · rw [Function.update_of_ne same] at locked
    exact free q locked

theorem Free.finish (free : s.Free p k) : (s.finish p).locks k = none := by
  cases locked : s.locks k with
  | none => simp [Store.finish, locked]
  | some q => simp [Store.finish, locked, free q locked]

theorem Valid.opening (valid : s.Valid) (unlocked : ∀ k, s.locks k = none) : s.Opening where
  drafts p := by
    apply AList.ext
    apply List.eq_nil_iff_forall_not_mem.2
    intro entry member
    have drafted : entry.1 ∈ s.drafts p := AList.mem_keys.2 (List.mem_keys_of_mem member)
    cases (unlocked entry.1).symm.trans (valid p entry.1 drafted)
  locks := unlocked

theorem Opening.finish (opening : s.Opening) : (s.finish p).Opening where
  drafts q := by
    by_cases mine : q = p
    · subst mine
      exact Function.update_self ..
    · exact (Function.update_of_ne mine ..).trans (opening.drafts q)
  locks k := by
    have unlocked := opening.locks k
    simp [Store.finish, unlocked]

theorem Opening.valid (opening : s.Opening) : s.Valid := by
  intro p k drafted
  rw [opening.drafts p] at drafted
  exact absurd drafted (AList.notMem_empty k)

theorem visible_of_undrafted (undrafted : k ∉ s.drafts p) : s.visible p k = s.rows.lookup k :=
  AList.lookup_union_right undrafted

theorem visible_of_drafts (empty : s.drafts p = ∅) : s.visible p k = s.rows.lookup k :=
  visible_of_undrafted (by rw [empty]; exact AList.notMem_empty k)

theorem visible_of_drafted (drafted : (s.drafts p).lookup k = some v) : s.visible p k = some v := by
  rw [visible, AList.lookup_union_left (AList.lookup_isSome.1 (by rw [drafted]; rfl)), drafted]

theorem rows_commit : (s.commit p).rows.lookup k = s.visible p k := rfl

@[simp] theorem drafts_commit : (s.commit p).drafts p = ∅ := Function.update_self ..

@[simp] theorem drafts_finish : (s.finish p).drafts p = ∅ := Function.update_self ..

@[simp] theorem rows_finish : (s.finish p).rows = s.rows := rfl

@[simp] theorem rows_lockAll (ks : List K) : (s.lockAll p ks).rows = s.rows := rfl

@[simp] theorem drafts_lockAll (ks : List K) : (s.lockAll p ks).drafts = s.drafts := rfl

theorem locks_lockAll {ks : List K} (member : k ∈ ks) : (s.lockAll p ks).locks k = some p := if_pos member

@[simp] theorem rows_draft : (s.draft p k v).rows = s.rows := rfl

@[simp] theorem drafts_draft : (s.draft p k v).drafts p = (s.drafts p).insert k v := Function.update_self ..

theorem lookup_insert_cases {rows : AList fun _ : K => V} {l : K} {u : V}
    (found : (rows.insert k v).lookup l = some u) : l = k ∧ u = v ∨ l ≠ k ∧ rows.lookup l = some u := by
  by_cases same : l = k
  · subst same
    rw [AList.lookup_insert] at found
    exact .inl ⟨rfl, (Option.some.inj found).symm⟩
  · rw [AList.lookup_insert_ne same] at found
    exact .inr ⟨same, found⟩

theorem drafted_cases {l : K} {u : V} (drafted : ((s.draft p k v).drafts q).lookup l = some u) :
    q = p ∧ l = k ∧ u = v ∨ (s.drafts q).lookup l = some u := by
  by_cases mine : q = p
  · subst mine
    rw [drafts_draft] at drafted
    exact (lookup_insert_cases drafted).imp (fun new => ⟨rfl, new⟩) And.right
  · exact .inr (by simpa [draft, Function.update_of_ne mine] using drafted)

theorem locks_draft {l : K} (locked : s.locks l = some p) : (s.draft p k v).locks l = some p := by
  by_cases same : l = k
  · subst same
    exact Function.update_self ..
  · exact (Function.update_of_ne same ..).trans locked

theorem locks_draft_iff {l : K} : (s.draft q k v).locks l = some p ↔ l = k ∧ q = p ∨ l ≠ k ∧
    s.locks l = some p := by
  by_cases same : l = k
  · subst same
    simp [Store.draft]
  · simp [Store.draft, same]

theorem locks_finish_iff : (s.finish q).locks k = some p ↔ s.locks k = some p ∧ q ≠ p := by
  by_cases mine : s.locks k = some q
  · simp [Store.finish, mine]
  · simp only [Store.finish, if_neg mine]
    constructor
    · intro locked
      refine ⟨locked, ?_⟩
      rintro rfl
      exact mine locked
    · exact And.left

theorem Opening.commit_draft (opening : s.Opening) : ((s.draft p k v).commit p).Opening where
  drafts q := by
    by_cases mine : q = p
    · subst mine
      exact drafts_commit
    · simp [Store.commit, Store.finish, Store.draft, mine, opening.drafts q]
  locks l := by
    by_cases same : l = k
    · simp [Store.commit, Store.finish, Store.draft, same]
    · simp [Store.commit, Store.finish, Store.draft, same, opening.locks l]

namespace Valid

theorem lockAll (valid : s.Valid) {ks : List K} (free : ∀ k ∈ ks, s.Free p k) : (s.lockAll p ks).Valid := by
  intro q k drafted
  by_cases member : k ∈ ks
  · rw [locks_lockAll member, free k member q (valid q k drafted)]
  · exact (if_neg member).trans (valid q k drafted)

theorem draft (valid : s.Valid) (free : s.Free p k) : (s.draft p k v).Valid := by
  intro q l drafted
  by_cases mine : q = p
  · subst mine
    rw [drafts_draft, AList.mem_insert] at drafted
    rcases drafted with rfl | drafted
    · exact Function.update_self ..
    · exact locks_draft (valid q l drafted)
  · have before : l ∈ s.drafts q := by simpa [Store.draft, Function.update_of_ne mine] using drafted
    have other : l ≠ k := by
      rintro rfl
      exact mine (free q (valid q l before))
    exact (Function.update_of_ne other ..).trans (valid q l before)

theorem finish (valid : s.Valid) : (s.finish p).Valid := by
  intro q k drafted
  by_cases mine : q = p
  · subst mine
    rw [drafts_finish] at drafted
    exact absurd drafted (AList.notMem_empty k)
  · have drafted : k ∈ s.drafts q := by simpa [Store.finish, Function.update_of_ne mine] using drafted
    have locked := valid q k drafted
    simpa [Store.finish, locked] using mine

theorem commit (valid : s.Valid) : (s.commit p).Valid :=
  Valid.finish (s := { s with rows := s.drafts p ∪ s.rows }) valid

end Valid

namespace Kept

theorem refl (p : ℕ) (s : Store K V) : Kept p s s := ⟨rfl, fun _ locked => locked, fun _ _ => rfl⟩

theorem trans (first : Kept p s s') (second : Kept p s' s'') : Kept p s s'' where
  drafts := second.drafts.trans first.drafts
  locks k locked := second.locks k (first.locks k locked)
  rows k locked := (second.rows k (first.locks k locked)).trans (first.rows k locked)

theorem lockAll {ks : List K} (free : ∀ k ∈ ks, s.Free p k) (other : q ≠ p) : Kept q s (s.lockAll p ks) where
  drafts := rfl
  locks k locked := (if_neg fun member => (free k member).not_locked other locked).trans locked
  rows _ _ := rfl

theorem draft (free : s.Free p k) (other : q ≠ p) : Kept q s (s.draft p k v) where
  drafts := Function.update_of_ne other ..
  locks l locked := by
    have different : l ≠ k := by
      rintro rfl
      exact free.not_locked other locked
    exact (Function.update_of_ne different ..).trans locked
  rows _ _ := rfl

theorem finish (other : q ≠ p) : Kept q s (s.finish p) where
  drafts := Function.update_of_ne other ..
  locks k locked := by simpa [Store.finish, locked] using other
  rows _ _ := rfl

/-- A commit of another session does not touch a locked row, for its drafts are locked. -/
theorem commit (valid : s.Valid) (other : q ≠ p) : Kept q s (s.commit p) where
  drafts := Function.update_of_ne other ..
  locks k locked := by simpa [Store.commit, Store.finish, locked] using other
  rows k locked := by
    refine (rows_commit (s := s) (p := p)).trans (visible_of_undrafted fun drafted => ?_)
    rw [valid p k drafted] at locked
    exact other (Option.some.inj locked).symm

theorem add (unlocked : s.locks k = none) : Kept q s (s.add k v) where
  drafts := rfl
  locks _ locked := locked
  rows l locked := by
    have different : l ≠ k := by
      rintro rfl
      rw [unlocked] at locked
      cases locked
    exact AList.lookup_insert_ne different

end Kept
end Store
end Concurrency
