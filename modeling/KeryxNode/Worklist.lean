import Mathlib.Data.List.Nodup
import Mathlib.Data.List.Perm.Subperm
import Mathlib.Logic.Relation

/-!
# Worklist Traversals

A traversal keeps a queue of nodes to expand and the list of nodes found so far. It takes the
first node of the queue, finds those of its successors that are new, and appends them to both. Over
a finite universe each node enters the queue once, so as many rounds as there are nodes in the
queue and outside the found ones exhaust it.
-/

namespace KeryxNode

open List

namespace Worklist

variable {rounds : ℕ}

universe u

variable {α : Type u} [DecidableEq α]

/-- The members of a list that are not found yet, each once, in order. -/
def discover (found : List α) : List α → List α
  | [] => []
  | y :: ys => if y ∈ found then discover found ys else y :: discover (y :: found) ys

/-- Expands the queue for some rounds; returns the found nodes in the order of discovery. -/
def traverse (next : α → List α) : ℕ → List α → List α → List α
  | 0, _, found => found
  | _ + 1, [], found => found
  | rounds + 1, x :: queue, found =>
    traverse next rounds (queue ++ discover found (next x)) (found ++ discover found (next x))

theorem mem_discover {found ys : List α} {y : α} :
    y ∈ discover found ys ↔ y ∈ ys ∧ y ∉ found := by
  induction ys generalizing found with
  | nil => simp [discover]
  | cons z ys ih =>
    rw [discover]
    by_cases hz : z ∈ found
    · rw [if_pos hz, ih, mem_cons]
      refine ⟨fun h => ⟨.inr h.1, h.2⟩, fun h => ⟨h.1.resolve_left ?_, h.2⟩⟩
      rintro rfl
      exact h.2 hz
    · rw [if_neg hz, mem_cons, ih, mem_cons]
      by_cases hy : y = z
      · subst hy
        simp [hz]
      · simp [hy]

/-- Only the members of the found list matter. -/
theorem discover_congr {found found' : List α} (h : ∀ x, x ∈ found ↔ x ∈ found') (ys : List α) :
    discover found ys = discover found' ys := by
  induction ys generalizing found found' with
  | nil => rfl
  | cons y ys ih =>
    rw [discover, ih h]
    have hcons : ∀ x, x ∈ y :: found ↔ x ∈ y :: found' := fun x => by
      rw [mem_cons, mem_cons, h]
    rw [ih hcons]
    exact if_congr (h y) rfl rfl

theorem nodup_discover (found ys : List α) : (discover found ys).Nodup := by
  induction ys generalizing found with
  | nil => exact nodup_nil
  | cons z ys ih =>
    rw [discover]
    split
    · exact ih found
    · refine nodup_cons.mpr ⟨fun hmem => ?_, ih (z :: found)⟩
      exact (mem_discover.mp hmem).2 mem_cons_self

variable {next : α → List α}

/-- One node is a successor of another. -/
def Step (next : α → List α) (a b : α) : Prop :=
  b ∈ next a

/-- What was found stays in front. -/
theorem prefix_traverse (rounds : ℕ) (queue found : List α) :
    found <+: traverse next rounds queue found := by
  induction rounds generalizing queue found with
  | zero => exact prefix_rfl
  | succ rounds ih =>
    cases queue with
    | nil => exact prefix_rfl
    | cons x queue => exact (prefix_append _ _).trans (ih _ _)

theorem nodup_append_discover {found : List α} (h : found.Nodup) (ys : List α) :
    (found ++ discover found ys).Nodup :=
  nodup_append.mpr ⟨h, nodup_discover found ys, fun _ ha _ hb heq =>
    (mem_discover.mp hb).2 (heq ▸ ha)⟩

theorem nodup_traverse {queue found : List α} (h : found.Nodup) :
    (traverse next rounds queue found).Nodup := by
  induction rounds generalizing queue found with
  | zero => exact h
  | succ rounds ih =>
    cases queue with
    | nil => exact h
    | cons x queue => exact ih (nodup_append_discover h _)

/-- **Soundness**: a node that is found was found before or is reached from the queue. -/
theorem reaches_of_mem_traverse {queue found : List α} {y : α}
    (hy : y ∈ traverse next rounds queue found) :
    y ∈ found ∨ ∃ x ∈ queue, Relation.TransGen (Step next) x y := by
  induction rounds generalizing queue found with
  | zero => exact .inl hy
  | succ rounds ih =>
    cases queue with
    | nil => exact .inl hy
    | cons x queue =>
      have hnew : ∀ {z}, z ∈ discover found (next x) → Step next x z := fun hz =>
        (mem_discover.mp hz).1
      rcases ih hy with hfound | ⟨z, hz, hzy⟩
      · rcases mem_append.mp hfound with hold | hstep
        · exact .inl hold
        · exact .inr ⟨x, mem_cons_self, .single (hnew hstep)⟩
      · rcases mem_append.mp hz with hold | hstep
        · exact .inr ⟨z, mem_cons_of_mem x hold, hzy⟩
        · exact .inr ⟨x, mem_cons_self, .head (hnew hstep) hzy⟩

/-- The rounds suffice for the queue: each node of a finite universe is found once. -/
structure Ready (nodes : List α) (rounds : ℕ) (queue found : List α) : Prop where
  sub : found ⊆ nodes
  nodup : found.Nodup
  rounds_le : queue.length + nodes.length ≤ rounds + found.length

namespace Ready

variable {nodes queue found : List α} {x : α}

omit [DecidableEq α] in
/-- Without a round left the queue is empty. -/
theorem queue_eq_nil (h : Ready nodes 0 queue found) : queue = [] := by
  have hlen := (h.nodup.subperm h.sub).length_le
  have hrounds := h.rounds_le
  exact length_eq_zero_iff.mp (by omega)

theorem step (h : Ready nodes (rounds + 1) (x :: queue) found) {ys : List α} (hys : ys ⊆ nodes) :
    Ready nodes rounds (queue ++ discover found ys) (found ++ discover found ys) where
  sub := append_subset.mpr ⟨h.sub, fun _ hy => hys (mem_discover.mp hy).1⟩
  nodup := nodup_append_discover h.nodup ys
  rounds_le := by
    have hrounds := h.rounds_le
    simp only [length_append, length_cons] at hrounds ⊢
    omega

end Ready

/-- **Completeness**: if the found nodes outside the queue are expanded already and the rounds
suffice, then the result holds the successors of the queue and of all its own nodes. -/
theorem closed_traverse {queue found nodes : List α} (hnext : ∀ x, next x ⊆ nodes)
    (hready : Ready nodes rounds queue found)
    (hdone : ∀ x ∈ found, x ∉ queue → next x ⊆ found) :
    (∀ x ∈ queue, next x ⊆ traverse next rounds queue found) ∧
      ∀ x ∈ traverse next rounds queue found, next x ⊆ traverse next rounds queue found := by
  induction rounds generalizing queue found with
  | zero =>
    obtain rfl := hready.queue_eq_nil
    exact ⟨nofun, fun x hx => hdone x hx not_mem_nil⟩
  | succ rounds ih =>
    cases queue with
    | nil => exact ⟨nofun, fun x hx => hdone x hx not_mem_nil⟩
    | cons x queue =>
      have hexpanded : next x ⊆ found ++ discover found (next x) := fun y hy => by
        by_cases hold : y ∈ found
        · exact mem_append_left _ hold
        · exact mem_append_right _ (mem_discover.mpr ⟨hy, hold⟩)
      obtain ⟨hqueue, hclosed⟩ := ih (hready.step (hnext x)) fun z hz hout => by
        rcases mem_append.mp hz with hold | hnew
        · by_cases hzx : z = x
          · exact hzx ▸ hexpanded
          · refine Subset.trans (hdone z hold fun hmem => ?_) (subset_append_left _ _)
            exact hout (mem_append_left _ ((mem_cons.mp hmem).resolve_left hzx))
        · exact absurd (mem_append_right _ hnew) hout
      exact ⟨forall_mem_cons.mpr ⟨Subset.trans hexpanded (prefix_traverse _ _ _).subset,
        fun z hz => hqueue z (mem_append_left _ hz)⟩, hclosed⟩

/-- **A traversal** finds exactly what was found and what is reached from the queue. -/
theorem mem_traverse_iff {queue found nodes : List α} {y : α} (hnext : ∀ x, next x ⊆ nodes)
    (hready : Ready nodes rounds queue found)
    (hdone : ∀ x ∈ found, x ∉ queue → next x ⊆ found) :
    y ∈ traverse next rounds queue found ↔
      y ∈ found ∨ ∃ x ∈ queue, Relation.TransGen (Step next) x y := by
  obtain ⟨hstart, hclosed⟩ := closed_traverse hnext hready hdone
  refine ⟨reaches_of_mem_traverse, ?_⟩
  rintro (hfound | ⟨x, hx, hxy⟩)
  · exact (prefix_traverse _ _ _).subset hfound
  · induction hxy with
    | single hstep => exact hstart x hx hstep
    | tail _ hstep ih => exact hclosed _ ih hstep

/-- A traversal from a queue of what is found. -/
theorem mem_traverse_self_iff {queue found nodes : List α} {y : α} (hnext : ∀ x, next x ⊆ nodes)
    (hready : Ready nodes rounds queue found) (hsame : ∀ x, x ∈ found ↔ x ∈ queue) :
    y ∈ traverse next rounds queue found ↔
      ∃ x ∈ queue, Relation.ReflTransGen (Step next) x y := by
  rw [mem_traverse_iff hnext hready fun x hx hnot => absurd ((hsame x).mp hx) hnot, hsame]
  simp only [Relation.reflTransGen_iff_eq_or_transGen, and_or_left, exists_or, exists_eq_right']

end Worklist

end KeryxNode
