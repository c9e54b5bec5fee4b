import Mathlib.Data.Finset.Card
import Mathlib.Data.List.Pairwise
import Mathlib.Order.Lattice

/-! Tables whose rows name their own place: rows written over them, the first rows of a kind by some rank, and
how many rows of a kind are left. -/

namespace LedgerFlow.Table

variable {ι ρ κ : Type} [DecidableEq ι] [LinearOrder κ] {place : ρ → ι} {table : ι → Option ρ}
  {rows chosen : List ρ} {row : ρ} {i : ι}

/-- The table with these rows written over its own. -/
def write (place : ρ → ι) (rows : List ρ) (table : ι → Option ρ) (i : ι) : Option ρ :=
  (rows.find? fun row => place row = i).or (table i)

/-- The chosen rows are the first ones of their kind, in order of rank; ties are broken in any way. -/
structure Oldest (place : ρ → ι) (table : ι → Option ρ) (Matches : ρ → Prop)
    (rank : ρ → κ) (limit : ℕ) (chosen : List ρ) : Prop where
  distinct : (chosen.map place).Nodup
  stored : ∀ row ∈ chosen, table (place row) = some row ∧ Matches row
  ordered : chosen.Pairwise fun row later => rank row ≤ rank later
  few : chosen.length ≤ limit
  first : ∀ i row, table i = some row → Matches row → row ∉ chosen →
    chosen.length = limit ∧ ∀ before ∈ chosen, rank before ≤ rank row

def places (support : Finset ι) (Matches : ρ → Prop) [DecidablePred Matches]
    (table : ι → Option ρ) : Finset ι :=
  support.filter fun i => ∃ row ∈ table i, Matches row

variable {Matches : ρ → Prop} {rank : ρ → κ} {limit : ℕ} {support : Finset ι}

theorem write_of_absent (absent : i ∉ rows.map place) : write place rows table i = table i := by
  unfold write
  have missed : rows.find? (fun row => place row = i) = none := by
    apply List.find?_eq_none.2
    intro row member same
    exact absent (List.mem_map.2 ⟨row, member, of_decide_eq_true same⟩)
  rw [missed, Option.none_or]

theorem write_cons : write place (row :: rows) table i =
    if place row = i then some row else write place rows table i := by
  unfold write
  rw [List.find?_cons]
  by_cases same : place row = i
  · simp [same]
  · simp [same]

@[simp] theorem write_nil : write place [] table i = table i := rfl

theorem write_of_mem (distinct : (rows.map place).Nodup) (member : row ∈ rows) :
    write place rows table (place row) = some row := by
  induction rows with
  | nil => cases member
  | cons first rows ih =>
    rw [List.map_cons, List.nodup_cons] at distinct
    rw [write_cons]
    rcases List.mem_cons.1 member with rfl | later
    · exact if_pos rfl
    · have other : place first ≠ place row := by
        intro same
        exact distinct.1 (same ▸ List.mem_map_of_mem later)
      rw [if_neg other]
      exact ih distinct.2 later

theorem write_cases (found : write place rows table i = some row) :
    row ∈ rows ∧ place row = i ∨ i ∉ rows.map place ∧ table i = some row := by
  by_cases absent : i ∈ rows.map place
  · left
    unfold write at found
    cases search : rows.find? (fun row => place row = i) with
    | none =>
      obtain ⟨other, member, same⟩ := List.mem_map.1 absent
      exact absurd (decide_eq_true same) (List.find?_eq_none.1 search other member)
    | some other =>
      rw [search, Option.some_or] at found
      cases found
      have found := List.find?_some search
      exact ⟨List.mem_of_find?_eq_some search, of_decide_eq_true found⟩
  · right
    exact ⟨absent, (write_of_absent absent).symm.trans found⟩

theorem write_singleton (absent : place row ∉ rows.map place) :
    write place rows (write place [row] table) = write place (row :: rows) table := by
  ext1 i
  rw [write_cons]
  by_cases same : place row = i
  · subst same
    rw [if_pos rfl, write_of_absent absent, write_cons, if_pos rfl]
  · rw [if_neg same]
    unfold write
    simp [same]

theorem write_over {newer : List ρ} (same : newer.map place = rows.map place) :
    write place newer (write place rows table) = write place newer table := by
  ext1 i
  by_cases absent : i ∈ newer.map place
  · unfold write
    cases search : newer.find? (fun row => place row = i) with
    | none =>
      obtain ⟨row, member, own⟩ := List.mem_map.1 absent
      exact absurd (decide_eq_true own) (List.find?_eq_none.1 search row member)
    | some row => rfl
  · rw [write_of_absent absent, write_of_absent absent, write_of_absent (same ▸ absent)]

omit [DecidableEq ι] in
theorem mem_places [DecidablePred Matches] :
    i ∈ places support Matches table ↔ i ∈ support ∧ ∃ row, table i = some row ∧ Matches row := by
  unfold places
  rw [Finset.mem_filter]
  exact Iff.rfl

/-- Writing rows brings no more rows of a kind than are written. -/
theorem card_write_le [DecidablePred Matches] :
    (places support Matches (write place rows table)).card ≤ (places support Matches table).card + rows.length := by
  have covered : places support Matches (write place rows table) ⊆ places support Matches table ∪
      (rows.map place).toFinset := by
    intro i member
    obtain ⟨inside, row, found, holds⟩ := mem_places.1 member
    rw [Finset.mem_union]
    rcases write_cases found with ⟨written, rfl⟩ | ⟨_, before⟩
    · exact .inr (List.mem_toFinset.2 (List.mem_map_of_mem written))
    · exact .inl (mem_places.2 ⟨inside, row, before, holds⟩)
  calc (places support Matches (write place rows table)).card
      ≤ (places support Matches table ∪ (rows.map place).toFinset).card := Finset.card_le_card covered
    _ ≤ (places support Matches table).card + (rows.map place).toFinset.card := Finset.card_union_le ..
    _ ≤ (places support Matches table).card + rows.length := by
      have few := List.toFinset_card_le (rows.map place)
      rw [List.length_map] at few
      omega

theorem places_write_subset [DecidablePred Matches] (other : ∀ row ∈ rows, ¬Matches row) :
    places support Matches (write place rows table) ⊆ places support Matches table \ (rows.map place).toFinset := by
  intro i member
  obtain ⟨inside, row, found, holds⟩ := mem_places.1 member
  rw [Finset.mem_sdiff, List.mem_toFinset]
  rcases write_cases found with ⟨written, _⟩ | ⟨absent, before⟩
  · exact absurd holds (other row written)
  · exact ⟨mem_places.2 ⟨inside, row, before, holds⟩, absent⟩

theorem card_write_add [DecidablePred Matches] (other : ∀ row ∈ rows, ¬Matches row)
    (distinct : (chosen.map place).Nodup)
    (stored : ∀ row ∈ chosen, table (place row) = some row ∧ Matches row)
    (same : rows.map place = chosen.map place)
    (inside : ∀ row ∈ chosen, place row ∈ support) :
    (places support Matches (write place rows table)).card + chosen.length ≤
    (places support Matches table).card := by
  have within : (chosen.map place).toFinset ⊆ places support Matches table := by
    intro i member
    obtain ⟨row, listed, rfl⟩ := List.mem_map.1 (List.mem_toFinset.1 member)
    obtain ⟨found, holds⟩ := stored row listed
    exact mem_places.2 ⟨inside row listed, row, found, holds⟩
  have left : places support Matches (write place rows table) ⊆ places support Matches table \
      (rows.map place).toFinset :=
    places_write_subset other
  have fewer := Finset.card_le_card left
  rw [same, Finset.card_sdiff_of_subset within] at fewer
  have most := Finset.card_le_card within
  have counted : (chosen.map place).toFinset.card = chosen.length := by
    rw [List.toFinset_card_of_nodup distinct, List.length_map]
  omega

omit [DecidableEq ι] in
theorem places_eq [DecidablePred Matches] {support' : Finset ι}
    (covered : ∀ i row, table i = some row → i ∈ support ∧ i ∈ support') :
    places support Matches table = places support' Matches table := by
  ext i
  rw [mem_places, mem_places]
  constructor
  · intro ⟨_, row, found, holds⟩
    exact ⟨(covered i row found).2, row, found, holds⟩
  · intro ⟨_, row, found, holds⟩
    exact ⟨(covered i row found).1, row, found, holds⟩

theorem card_places_or [DecidablePred Matches] {Others : ρ → Prop} [DecidablePred Others]
    (exclude : ∀ row, Matches row → ¬Others row) :
    (places support (fun row => Matches row ∨ Others row) table).card =
      (places support Matches table).card + (places support Others table).card := by
  have split : places support (fun row => Matches row ∨ Others row) table =
      places support Matches table ∪ places support Others table := by
    ext i
    rw [Finset.mem_union, mem_places, mem_places, mem_places]
    constructor
    · intro ⟨inside, row, found, holds⟩
      exact holds.imp (fun holds => ⟨inside, row, found, holds⟩) fun holds => ⟨inside, row, found, holds⟩
    · intro holds
      rcases holds with ⟨inside, row, found, holds⟩ | ⟨inside, row, found, holds⟩
      · exact ⟨inside, row, found, .inl holds⟩
      · exact ⟨inside, row, found, .inr holds⟩
  rw [split]
  apply Finset.card_union_of_disjoint
  apply Finset.disjoint_left.2
  intro i first second
  obtain ⟨_, row, found, holds⟩ := mem_places.1 first
  obtain ⟨_, row', found', holds'⟩ := mem_places.1 second
  cases found.symm.trans found'
  exact exclude row holds holds'

theorem Oldest.length_eq [DecidablePred Matches] (oldest : Oldest place table Matches rank limit chosen)
    (named : ∀ i row, table i = some row → place row = i ∧ i ∈ support) :
    chosen.length = min limit (places support Matches table).card := by
  have counted : (chosen.map place).toFinset.card = chosen.length := by
    rw [List.toFinset_card_of_nodup oldest.distinct, List.length_map]
  have within : (chosen.map place).toFinset ⊆ places support Matches table := by
    intro i member
    obtain ⟨row, listed, rfl⟩ := List.mem_map.1 (List.mem_toFinset.1 member)
    obtain ⟨found, holds⟩ := oldest.stored row listed
    exact mem_places.2 ⟨(named _ row found).2, row, found, holds⟩
  have most := Finset.card_le_card within
  have few := oldest.few
  by_cases full : chosen.length = limit
  · omega
  · -- no row of the kind is left out
    have all : places support Matches table ⊆ (chosen.map place).toFinset := by
      intro i member
      obtain ⟨_, row, found, holds⟩ := mem_places.1 member
      have listed : row ∈ chosen := by
        by_contra missing
        exact full (oldest.first i row found holds missing).1
      rw [← (named i row found).1]
      exact List.mem_toFinset.2 (List.mem_map_of_mem listed)
    have least := Finset.card_le_card all
    omega

end LedgerFlow.Table
