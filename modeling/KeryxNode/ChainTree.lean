import Mathlib.Data.List.Nodup
import Mathlib.Data.Nat.Find

/-!
# Chains in a Tree

A tree is given by the parent of a node and a rank that increases from parent to child. The
chain to a node is the list of its ancestors, root first. A node determines the chain to it, so
two chains agree up to their last common node and share nothing past it; the path from one to
the other takes back the rest of the first and adds the rest of the second.
-/

namespace KeryxNode

open List

namespace ChainTree

universe u

variable {α : Type u} (parent : α → Option α) (rank : α → ℕ) {a : α}

/-- A node and its ancestors, nearest first, as far as the fuel goes. -/
def ancestors : ℕ → α → List α
  | 0, _ => []
  | fuel + 1, a =>
    a :: match parent a with
      | some p => ancestors fuel p
      | none => []

/-- The chain to a node, root first. The rank of the node bounds its length. -/
def chainTo (a : α) : List α :=
  (ancestors parent (rank a + 1) a).reverse

/-- The nodes that lead from one node back to the last common ancestor, nearest first, and
those that lead from there to the other node. -/
def chainPath [DecidableEq α] (source target : α) : List α × List α :=
  let back := ancestors parent (rank source + 1) source
  let onTarget := fun a => decide (a ∈ chainTo parent rank target)
  let commonAncestor := (back.find? onTarget).getD source
  (back.takeWhile fun a => !onTarget a,
    ((ancestors parent (rank target + 1) target).takeWhile fun a =>
      decide (a ≠ commonAncestor)).reverse)

/-- The rank increases from parent to child. -/
def Ranked : Prop :=
  ∀ a p, parent a = some p → rank p < rank a

variable {parent rank}

theorem chainTo_root (h : parent a = none) : chainTo parent rank a = [a] := by
  rw [chainTo, ancestors, h]
  rfl

theorem getLast?_chainTo (a : α) : (chainTo parent rank a).getLast? = some a := by
  rw [chainTo, getLast?_reverse]
  rfl

/-- A chain is no longer than its fuel. -/
theorem length_ancestors_le (fuel : ℕ) (a : α) : (ancestors parent fuel a).length ≤ fuel := by
  induction fuel generalizing a with
  | zero => exact Nat.le_refl 0
  | succ fuel ih =>
    rw [ancestors]
    cases parent a with
    | none => exact Nat.le_add_left 1 fuel
    | some p => exact Nat.succ_le_succ (ih p)

theorem length_chainTo_le (a : α) : (chainTo parent rank a).length ≤ rank a + 1 := by
  rw [chainTo, length_reverse]
  exact length_ancestors_le _ a

section Chains

variable (hrank : Ranked parent rank) {i : ℕ} {b : α}
include hrank

/-- Fuel past the rank changes nothing. -/
theorem ancestors_congr {fuel fuel' : ℕ} (h : rank a < fuel) (h' : rank a < fuel') :
    ancestors parent fuel a = ancestors parent fuel' a := by
  induction fuel generalizing a fuel' with
  | zero => cases h
  | succ k ih =>
    cases fuel' with
    | zero => cases h'
    | succ k' =>
      rw [ancestors, ancestors]
      cases hp : parent a with
      | none => rfl
      | some p =>
        have hlt := hrank a p hp
        simp only [cons.injEq, true_and]
        exact ih (by omega) (by omega)

theorem chainTo_child {p : α} (h : parent a = some p) :
    chainTo parent rank a = chainTo parent rank p ++ [a] := by
  rw [chainTo, ancestors, h]
  simp only [reverse_cons]
  rw [ancestors_congr hrank (hrank a p h) (Nat.lt_succ_self _), chainTo]

/-- Induction along parents. -/
theorem parent_induction {motive : α → Prop} (root : ∀ a, parent a = none → motive a)
    (child : ∀ a p, parent a = some p → motive p → motive a) (a : α) : motive a := by
  induction hn : rank a using Nat.strong_induction_on generalizing a with
  | _ n ih =>
    subst hn
    cases hp : parent a with
    | none => exact root a hp
    | some p => exact child a p hp (ih (rank p) (hrank a p hp) p rfl)

/-- **A node determines the chain to it**: it is the initial part of every chain through it. -/
theorem chainTo_of_getElem? (h : (chainTo parent rank b)[i]? = some a) :
    chainTo parent rank a = (chainTo parent rank b).take (i + 1) := by
  induction b using parent_induction hrank with
  | root b hb =>
    rw [chainTo_root hb] at h ⊢
    obtain ⟨hi, rfl⟩ := List.getElem?_eq_some_iff.mp h
    obtain rfl : i = 0 := by simpa using hi
    exact chainTo_root hb
  | child b p hb ih =>
    have hchain := chainTo_child hrank hb
    rw [hchain] at h ⊢
    rcases Nat.lt_or_ge i (chainTo parent rank p).length with hi | hi
    · rw [getElem?_append_left hi] at h
      rw [ih h, take_append_of_le_length hi]
    · rw [getElem?_append_right hi] at h
      obtain ⟨hj, rfl⟩ := List.getElem?_eq_some_iff.mp h
      have hlen : i = (chainTo parent rank p).length := by
        rw [length_singleton] at hj
        omega
      rw [take_of_length_le (by simp [hlen])]
      simpa using hchain

/-- Positions on a chain are determined by the node. -/
theorem length_chainTo_of_getElem? (h : (chainTo parent rank b)[i]? = some a) :
    (chainTo parent rank a).length = i + 1 := by
  have hi := (List.getElem?_eq_some_iff.mp h).1
  rw [chainTo_of_getElem? hrank h, length_take_of_le hi]

/-- A node on two chains stands at one position, and the chains agree up to there. -/
theorem take_eq_of_mem {c : α} (hb : (chainTo parent rank b)[i]? = some a)
    (hc : a ∈ chainTo parent rank c) :
    (chainTo parent rank c)[i]? = some a ∧
      (chainTo parent rank b).take (i + 1) = (chainTo parent rank c).take (i + 1) := by
  obtain ⟨j, hj⟩ := getElem?_of_mem hc
  obtain rfl : i = j := by
    have h₁ := length_chainTo_of_getElem? hrank hb
    have h₂ := length_chainTo_of_getElem? hrank hj
    omega
  exact ⟨hj, (chainTo_of_getElem? hrank hb).symm.trans (chainTo_of_getElem? hrank hj)⟩

theorem nodup_chainTo (a : α) : (chainTo parent rank a).Nodup := by
  induction a using parent_induction hrank with
  | root a ha => rw [chainTo_root ha]; exact nodup_singleton a
  | child a p ha ih =>
    rw [chainTo_child hrank ha]
    refine nodup_append.mpr ⟨ih, nodup_singleton a, fun b hb c hc heq => ?_⟩
    obtain rfl := mem_singleton.mp hc
    subst heq
    -- A chain through its own end's child would be longer than itself.
    obtain ⟨i, hi⟩ := getElem?_of_mem hb
    have hlt := (List.getElem?_eq_some_iff.mp hi).1
    have hlen := length_chainTo_of_getElem? hrank hi
    rw [chainTo_child hrank ha, length_append, length_singleton] at hlen
    omega

/-- **The rank grows along a chain** by at least one per position. -/
theorem rank_add_le {c : α} {j : ℕ} (ha : (chainTo parent rank c)[i]? = some a)
    (hb : (chainTo parent rank c)[j]? = some b) (hij : i ≤ j) : rank a + (j - i) ≤ rank b := by
  induction j, hij using Nat.le_induction generalizing b with
  | base =>
    rw [hb] at ha
    cases ha
    omega
  | succ j hij ih =>
    -- The node before `b` is its parent.
    have hlen := length_chainTo_of_getElem? hrank hb
    cases hp : parent b with
    | none =>
      rw [chainTo_root hp] at hlen
      simp at hlen
    | some p =>
      have hstart := chainTo_of_getElem? hrank hb
      have hlen' : (chainTo parent rank p).length = j + 1 := by
        simpa [chainTo_child hrank hp] using hlen
      have hlast : (chainTo parent rank p)[j]? = some p := by
        have hend : (chainTo parent rank p).getLast? = some p := getLast?_chainTo p
        rwa [getLast?_eq_getElem?, hlen'] at hend
      have hpj : (chainTo parent rank c)[j]? = some p := by
        have hget := congrArg (·[j]?) hstart
        simp only [chainTo_child hrank hp] at hget
        rw [getElem?_append_left (by omega), hlast,
          getElem?_take_of_lt (by omega)] at hget
        exact hget.symm
      have := ih hpj
      have := hrank b p hp
      omega

omit hrank in
/-- Two chains that share a node have a last one. -/
theorem exists_lastCommon {x : α} (hi : (chainTo parent rank a)[i]? = some x)
    (hx : x ∈ chainTo parent rank b) :
    ∃ c y, i ≤ c ∧ (chainTo parent rank a)[c]? = some y ∧ y ∈ chainTo parent rank b ∧
      ∀ j z, c < j → (chainTo parent rank a)[j]? = some z → z ∉ chainTo parent rank b := by
  classical
  let common : ℕ → Prop := fun j =>
    ∃ y, (chainTo parent rank a)[j]? = some y ∧ y ∈ chainTo parent rank b
  have hlt : ∀ {j}, common j → j ≤ (chainTo parent rank a).length := fun ⟨_, hy, _⟩ =>
    Nat.le_of_lt (List.getElem?_eq_some_iff.mp hy).1
  have hbase : common i := ⟨x, hi, hx⟩
  obtain ⟨y, hy, hyb⟩ := Nat.findGreatest_spec (P := common) (hlt hbase) hbase
  refine ⟨_, y, Nat.le_findGreatest (hlt hbase) hbase, hy, hyb, fun j z hj hz hzb => ?_⟩
  exact absurd (Nat.le_findGreatest (P := common) (hlt ⟨z, hz, hzb⟩) ⟨z, hz, hzb⟩) hj.not_ge

/-- **The path between two nodes** takes back the first chain past the last common node and
adds the second. -/
theorem chainPath_eq [DecidableEq α] {x : α} {c : ℕ}
    (hc : (chainTo parent rank a)[c]? = some x) (hx : x ∈ chainTo parent rank b)
    (hlast : ∀ j z, c < j → (chainTo parent rank a)[j]? = some z → z ∉ chainTo parent rank b) :
    chainPath parent rank a b
      = (((chainTo parent rank a).drop (c + 1)).reverse, (chainTo parent rank b).drop (c + 1)) := by
  obtain ⟨hcb, -⟩ := take_eq_of_mem hrank hc hx
  have hback : ∀ d, ancestors parent (rank d + 1) d = (chainTo parent rank d).reverse := fun d => by
    rw [chainTo, reverse_reverse]
  -- Read from its end, a chain is what follows `x`, then `x`, then what precedes it.
  have hsplit : ∀ {l : List α}, l[c]? = some x →
      l.reverse = (l.drop (c + 1)).reverse ++ x :: (l.take c).reverse := by
    intro l hl
    have htake : l.take (c + 1) = l.take c ++ [x] := by rw [take_add_one, hl]; rfl
    conv_lhs => rw [← take_append_drop (c + 1) l, htake]
    simp
  have hoff : ∀ z ∈ ((chainTo parent rank a).drop (c + 1)).reverse,
      z ∉ chainTo parent rank b := by
    intro z hz
    obtain ⟨j, hj⟩ := getElem?_of_mem (mem_reverse.mp hz)
    rw [getElem?_drop] at hj
    exact hlast _ z (by omega) hj
  have hne : ∀ z ∈ ((chainTo parent rank b).drop (c + 1)).reverse, z ≠ x := by
    rintro z hz rfl
    obtain ⟨j, hj⟩ := getElem?_of_mem (mem_reverse.mp hz)
    rw [getElem?_drop] at hj
    have h₁ := length_chainTo_of_getElem? hrank hcb
    have h₂ := length_chainTo_of_getElem? hrank hj
    omega
  have hfind : ((chainTo parent rank a).reverse.find? fun z =>
      decide (z ∈ chainTo parent rank b)) = some x := by
    rw [hsplit hc, find?_append, find?_eq_none.mpr fun z hz => by simpa using hoff z hz,
      Option.none_or, find?_cons_of_pos (by simpa using hx)]
  rw [chainPath]
  simp only [hback, hfind]
  refine Prod.ext ?_ ?_
  · rw [hsplit hc, takeWhile_append_of_pos fun z hz => by simpa using hoff z hz,
      takeWhile_cons_of_neg (by simpa using hx), append_nil]
  · rw [hsplit hcb, takeWhile_append_of_pos fun z hz => by simpa using hne z hz,
      takeWhile_cons_of_neg (by simp), append_nil, reverse_reverse]

end Chains

end ChainTree

end KeryxNode
