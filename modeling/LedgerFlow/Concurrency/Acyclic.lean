import Mathlib.Data.Finset.Card
import Mathlib.Logic.Relation
import Mathlib.Order.Basic

/-! Relations without cycles. -/

namespace Concurrency
variable {α β : Type} {R S : α → α → Prop}

def Acyclic (R : α → α → Prop) : Prop := ∀ x, ¬Relation.TransGen R x x

namespace Acyclic

theorem mono (acyclic : Acyclic R) (fewer : ∀ x y, S x y → R x y) : Acyclic S :=
  fun x circle => acyclic x (Relation.TransGen.mono fewer x x circle)

theorem of_rank [Preorder β] (rank : α → β) (edge : ∀ x y, R x y → rank x < rank y) : Acyclic R := by
  have climbs : ∀ x y, Relation.TransGen R x y → rank x < rank y := by
    intro x y path
    induction path with
    | single first => exact edge _ _ first
    | tail _ last ih => exact ih.trans (edge _ _ last)
  exact fun x circle => lt_irrefl _ (climbs x x circle)

theorem path_insert {a b x y : α} (edges : ∀ x y, S x y → R x y ∨ x = a ∧ y = b)
    (unreached : ¬Relation.ReflTransGen R b a) (path : Relation.TransGen S x y) :
    Relation.TransGen R x y ∨ Relation.ReflTransGen R x a ∧ Relation.ReflTransGen R b y := by
  induction path with
  | single first =>
    rcases edges _ _ first with old | ⟨rfl, rfl⟩
    · exact .inl (.single old)
    · exact .inr ⟨.refl, .refl⟩
  | tail _ last ih =>
    rcases edges _ _ last with old | ⟨rfl, rfl⟩
    · rcases ih with before | ⟨first, second⟩
      · exact .inl (before.tail old)
      · exact .inr ⟨first, second.tail old⟩
    · rcases ih with before | ⟨_, second⟩
      · exact .inr ⟨before.to_reflTransGen, .refl⟩
      · exact absurd second unreached

/-- One more edge, whose end does not lead back to its start. -/
theorem insert {a b : α} (acyclic : Acyclic R) (edges : ∀ x y, S x y → R x y ∨ x = a ∧ y = b)
    (unreached : ¬Relation.ReflTransGen R b a) : Acyclic S := by
  intro x circle
  rcases path_insert edges unreached circle with old | ⟨first, second⟩
  · exact acyclic x old
  · exact unreached (second.trans first)

theorem not_forever (acyclic : Acyclic R) (points : Finset α)
    (covers : ∀ x y, R x y → y ∈ points) {P : α → Prop}
    (passes : ∀ x, P x → ∃ y, R x y ∧ P y) (x : α) : ¬P x := by
  classical
  induction size : (points.filter (Relation.TransGen R x)).card using Nat.strong_induction_on generalizing x with
  | _ size ih =>
    intro holds
    obtain ⟨y, edge, next⟩ := passes x holds
    have within : points.filter (Relation.TransGen R y) ⊆ points.filter (Relation.TransGen R x) := by
      intro z member
      rw [Finset.mem_filter] at member ⊢
      exact ⟨member.1, .head edge member.2⟩
    have reached : y ∈ points.filter (Relation.TransGen R x) :=
      Finset.mem_filter.2 ⟨covers x y edge, .single edge⟩
    have missed : y ∉ points.filter (Relation.TransGen R y) := by
      rw [Finset.mem_filter]
      exact fun member => acyclic y member.2
    have fewer := Finset.card_lt_card ((Finset.ssubset_iff_of_subset within).2 ⟨y, reached, missed⟩)
    exact ih _ (size ▸ fewer) y rfl next

end Acyclic
end Concurrency
