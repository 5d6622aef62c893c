import Mathlib.Order.Antichain

/-!
# The Maximal Members of a Set, One Member at a Time

A list holds the maximal members of a set if it is an antichain of members that covers the set. A
new member is offered to such a list by dropping what lies below it, and adding it if something was
dropped or if it lies below nothing that was kept.
-/

namespace KeryxNode

open List

universe u

variable {α : Type u} {r : α → α → Prop} {C C' : List α} {S T : Set α} {a g : α}

/-- `C` lists the maximal members of `S` for the order `r`. -/
structure MaximalsOf (r : α → α → Prop) (C : List α) (S : Set α) : Prop where
  member : ∀ c ∈ C, c ∈ S
  antichain : IsAntichain r {c | c ∈ C}
  covers : ∀ s ∈ S, ∃ c ∈ C, r s c

theorem MaximalsOf.congr (h : MaximalsOf r C S) (hC : ∀ a, a ∈ C' ↔ a ∈ C)
    (hS : ∀ a, a ∈ T ↔ a ∈ S) : MaximalsOf r C' T where
  member c hc := (hS c).mpr (h.member c ((hC c).mp hc))
  antichain := h.antichain.subset fun c hc => (hC c).mp hc
  covers s hs := by
    obtain ⟨c, hc, hsc⟩ := h.covers s ((hS s).mp hs)
    exact ⟨c, (hC c).mpr hc, hsc⟩

namespace MaximalsOf

variable [IsPartialOrder α r]

/-- An antichain lists its own maximal members. -/
theorem of_antichain (h : IsAntichain r {c | c ∈ C}) : MaximalsOf r C {c | c ∈ C} :=
  ⟨fun _ hc => hc, h, fun s hs => ⟨s, hs, refl_of r s⟩⟩

/-- The list holds exactly the members that are below no other member. -/
theorem mem_iff (h : MaximalsOf r C S) : a ∈ C ↔ a ∈ S ∧ ∀ b ∈ S, r a b → b = a := by
  constructor
  · intro ha
    refine ⟨h.member a ha, fun b hb hab => ?_⟩
    -- What covers `b` also lies above `a`, so it is `a`.
    obtain ⟨c, hc, hbc⟩ := h.covers b hb
    obtain rfl : a = c := h.antichain.eq ha hc (trans_of r hab hbc)
    exact antisymm_of r hbc hab
  · rintro ⟨ha, hmax⟩
    obtain ⟨c, hc, hac⟩ := h.covers a ha
    exact hmax c (h.member c hc) hac ▸ hc

/-- A set between the maximal members and everything below them has the same maximal members. -/
theorem widen (h : MaximalsOf r C S) (hST : S ⊆ T) (hcover : ∀ t ∈ T, ∃ s ∈ S, r t s) :
    MaximalsOf r C T where
  member c hc := hST (h.member c hc)
  antichain := h.antichain
  covers t ht := by
    obtain ⟨s, hs, hts⟩ := hcover t ht
    obtain ⟨c, hc, hsc⟩ := h.covers s hs
    exact ⟨c, hc, trans_of r hts hsc⟩

/-- A member that is added lies below none of the others: were it below `c`, what it drops would
be below `c` too. -/
theorem not_below_of_added (h : MaximalsOf r C S)
    (hadded : (∃ c ∈ C, r c g) ∨ ∀ c ∈ C, ¬ r g c) {c : α} (hc : c ∈ C) (hcg : ¬ r c g) :
    ¬ r g c := by
  intro hgc
  obtain ⟨d, hd, hdg⟩ | hnone := hadded
  · have hdc : d = c := h.antichain.eq hd hc (trans_of r hdg hgc)
    exact hcg (hdc ▸ hdg)
  · exact hnone c hc hgc

end MaximalsOf

/-! ### Offering members -/

section Offer

variable [DecidableRel r]

/-- When an offered member is added. -/
theorem offerMaximal_added_iff :
    ((C.filter fun c => !decide (r c g)).length < C.length ||
      !(C.filter fun c => !decide (r c g)).any fun c => decide (r g c)) = true ↔
      (∃ c ∈ C, r c g) ∨ ∀ c ∈ C, ¬ r g c := by
  rw [Bool.or_eq_true, decide_eq_true_eq, length_filter_lt_length_iff_exists]
  by_cases hdropped : ∃ c ∈ C, r c g
  · simp [hdropped]
  · push Not at hdropped
    have hkept : C.filter (fun c => !decide (r c g)) = C :=
      filter_eq_self.mpr fun c hc => by simp [hdropped c hc]
    rw [hkept]
    simp

variable [DecidableEq α]

variable (r) in
/-- Offers a new member: what lies below it is dropped, and it is added if something was dropped
or it lies below nothing that was kept. -/
def offerMaximal (C : List α) (g : α) : List α :=
  let kept := C.filter fun c => !decide (r c g)
  if kept.length < C.length || !kept.any (fun c => decide (r g c)) then
    kept.filter (fun c => decide (c ≠ g)) ++ [g]
  else kept

variable [IsPartialOrder α r]

theorem mem_offerMaximal : a ∈ offerMaximal r C g ↔
    (a ∈ C ∧ ¬ r a g) ∨ (a = g ∧ ((∃ c ∈ C, r c g) ∨ ∀ c ∈ C, ¬ r g c)) := by
  have hkept : a ∈ C.filter (fun c => !decide (r c g)) ↔ a ∈ C ∧ ¬ r a g := by
    simp
  rw [offerMaximal]
  by_cases hadded : (∃ c ∈ C, r c g) ∨ ∀ c ∈ C, ¬ r g c
  · rw [if_pos (offerMaximal_added_iff.mpr hadded), mem_append, mem_filter, hkept,
      mem_singleton, decide_eq_true_eq, and_iff_left hadded]
    -- A kept member is not the new one, which lies below itself.
    refine or_congr_left (and_iff_left_of_imp fun h => ?_)
    rintro rfl
    exact h.2 (refl_of r a)
  · rw [if_neg (mt offerMaximal_added_iff.mp hadded), hkept, or_iff_left fun h => hadded h.2]

/-- Offering a member keeps the list the maximal members. -/
theorem MaximalsOf.offer (h : MaximalsOf r C S) (g : α) :
    MaximalsOf r (offerMaximal r C g) (insert g S) where
  member a ha := by
    obtain ⟨haC, -⟩ | ⟨rfl, -⟩ := mem_offerMaximal.mp ha
    · exact Set.mem_insert_of_mem g (h.member a haC)
    · exact Set.mem_insert a S
  antichain := by
    intro a ha b hb hab hrel
    obtain ⟨haC, hag⟩ | ⟨rfl, hadded⟩ := mem_offerMaximal.mp ha
    · obtain ⟨hbC, -⟩ | ⟨rfl, -⟩ := mem_offerMaximal.mp hb
      · exact h.antichain haC hbC hab hrel
      · exact hag hrel
    · obtain ⟨hbC, hba⟩ | ⟨rfl, -⟩ := mem_offerMaximal.mp hb
      · exact h.not_below_of_added hadded hbC hba hrel
      · exact hab rfl
  covers s hs := by
    -- The new member covers itself, or what it lies below does.
    have hg : ∃ c ∈ offerMaximal r C g, r g c := by
      by_cases hadded : (∃ c ∈ C, r c g) ∨ ∀ c ∈ C, ¬ r g c
      · exact ⟨g, mem_offerMaximal.mpr (.inr ⟨rfl, hadded⟩), refl_of r g⟩
      · push Not at hadded
        obtain ⟨hnone, c, hc, hgc⟩ := hadded
        exact ⟨c, mem_offerMaximal.mpr (.inl ⟨hc, hnone c hc⟩), hgc⟩
    obtain rfl | hsS := hs
    · exact hg
    · obtain ⟨c, hc, hsc⟩ := h.covers s hsS
      by_cases hcg : r c g
      · obtain ⟨d, hd, hgd⟩ := hg
        exact ⟨d, hd, trans_of r (trans_of r hsc hcg) hgd⟩
      · exact ⟨c, mem_offerMaximal.mpr (.inl ⟨hc, hcg⟩), hsc⟩

/-- The same for a whole list of members. -/
theorem MaximalsOf.foldl_offer (h : MaximalsOf r C S) (gs : List α) :
    MaximalsOf r (gs.foldl (offerMaximal r) C) (S ∪ {g | g ∈ gs}) := by
  induction gs generalizing C S with
  | nil => exact h.congr (fun _ => Iff.rfl) fun a => by simp
  | cons g gs ih =>
    refine (ih (h.offer g)).congr (fun _ => Iff.rfl) fun a => ?_
    simp only [Set.mem_union, Set.mem_insert_iff, Set.mem_ofPred_eq, mem_cons]
    tauto

end Offer

end KeryxNode
