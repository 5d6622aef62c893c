import Mathlib.Data.Set.Card

/-!
# Clusters of a Relation

The degree of a node in a set is the number of members it is related to; a set in which all members
have degree at most `k` is a cluster. A list of distinct members is counted by filtering it.
-/

namespace KeryxNode

universe u

variable {α : Type u} (r : α → α → Prop)

/-- The number of members of a set that a node is related to. -/
noncomputable def degree (S : Set α) (x : α) : ℕ :=
  {y | y ∈ S ∧ r x y}.ncard

/-- Every member of the set is related to at most `k` members. -/
def IsCluster (k : ℕ) (S : Set α) : Prop :=
  ∀ x ∈ S, degree r S x ≤ k

variable {r} {l : List α}

/-- A node related to no members but those of a list. -/
theorem degree_le_length {S : Set α} {x : α} (h : ∀ y ∈ S, r x y → y ∈ l) :
    degree r S x ≤ l.length := by
  classical
  have hsub : {y | y ∈ S ∧ r x y} ⊆ (l.toFinset : Set α) := fun y hy =>
    List.mem_toFinset.mpr (h y hy.1 hy.2)
  refine (Set.ncard_le_ncard hsub l.toFinset.finite_toSet).trans ?_
  rw [Set.ncard_coe_finset]
  exact l.toFinset_card_le

variable [DecidableRel r]

/-- The degree in the members of a list, each listed once. -/
theorem degree_eq_countP (h : l.Nodup) (x : α) :
    degree r {y | y ∈ l} x = l.countP fun y => decide (r x y) := by
  classical
  have hset : {y | y ∈ {y | y ∈ l} ∧ r x y}
      = ((l.filter fun y => decide (r x y)).toFinset : Set α) := by
    simp
  rw [degree, hset, Set.ncard_coe_finset, List.toFinset_card_of_nodup (h.filter _),
    List.countP_eq_length_filter]

end KeryxNode
