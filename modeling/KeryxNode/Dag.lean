import Mathlib.Data.List.Flatten
import Mathlib.Logic.Relation
import Mathlib.Order.RelClasses
import Mathlib.Order.WellFounded

/-!
# Directed Acyclic Graphs

A graph given by the parents of every node. Acyclic means that going from a node to its parents
ends, so a node is never in its own past.
-/

namespace KeryxNode

open Relation

universe u

/-- A graph of parent edges without infinite descents. -/
@[ext]
structure Dag (α : Type u) where
  parents : α → List α
  wf : WellFounded fun a b => a ∈ parents b

namespace Dag

variable {α : Type u} (D : Dag α) {a b c : α}

/-- A path of parent edges, possibly empty, leads from `b` back to `a`. -/
def Reaches (a b : α) : Prop :=
  Relation.ReflTransGen (fun x y => x ∈ D.parents y) a b

/-- A path of at least one parent edge leads from `b` back to `a`. -/
def InPast (a b : α) : Prop :=
  Relation.TransGen (fun x y => x ∈ D.parents y) a b

variable {D}

@[refl]
theorem Reaches.refl (a : α) : D.Reaches a a :=
  ReflTransGen.refl

theorem Reaches.trans (hab : D.Reaches a b) (hbc : D.Reaches b c) : D.Reaches a c :=
  ReflTransGen.trans hab hbc

theorem InPast.reaches (h : D.InPast a b) : D.Reaches a b :=
  TransGen.to_reflTransGen h

theorem Reaches.of_parent (h : a ∈ D.parents b) : D.Reaches a b :=
  .single h

theorem InPast.of_parent (h : a ∈ D.parents b) : D.InPast a b :=
  .single h

theorem InPast.trans_reaches (hab : D.InPast a b) (hbc : D.Reaches b c) : D.InPast a c :=
  .trans_left hab hbc

/-- The last edge of a path. -/
theorem inPast_iff : D.InPast a b ↔ ∃ p ∈ D.parents b, D.Reaches a p :=
  TransGen.tail'_iff.trans ⟨fun ⟨p, h, hp⟩ => ⟨p, hp, h⟩, fun ⟨p, hp, h⟩ => ⟨p, h, hp⟩⟩

/-- Backwards along a path to a node outside the past of `c`, all nodes are outside it. -/
theorem Reaches.outside (h : D.Reaches a b) (hout : ¬ D.Reaches a c) :
    ReflTransGen (fun x y => y ∈ D.parents x ∧ ¬ D.Reaches x c ∧ ¬ D.Reaches y c) b a := by
  induction h using ReflTransGen.head_induction_on with
  | refl => exact .refl
  | @head a x hstep _ ih =>
    have hx : ¬ D.Reaches x c := fun hx => hout ((Reaches.of_parent hstep).trans hx)
    exact (ih hx).tail ⟨hstep, hx, hout⟩

/-- A node reaches itself and what it has in its past. -/
theorem reaches_iff_eq_or_inPast : D.Reaches a b ↔ a = b ∨ D.InPast a b :=
  reflTransGen_iff_eq_or_transGen.trans (or_congr_left eq_comm)

theorem reaches_iff : D.Reaches a b ↔ a = b ∨ ∃ p ∈ D.parents b, D.Reaches a p :=
  reaches_iff_eq_or_inPast.trans (or_congr_right inPast_iff)

/-- No node is in its own past. -/
theorem not_inPast_self (a : α) : ¬ D.InPast a a :=
  fun h => D.wf.transGen.irrefl.irrefl a h

theorem Reaches.antisymm (hab : D.Reaches a b) (hba : D.Reaches b a) : a = b := by
  obtain rfl | hpast := reaches_iff_eq_or_inPast.mp hab
  · rfl
  · exact absurd (hpast.trans_reaches hba) (not_inPast_self a)

instance : IsPartialOrder α D.Reaches where
  refl := Reaches.refl
  trans _ _ _ := Reaches.trans
  antisymm _ _ := Reaches.antisymm

theorem InPast.ne (h : D.InPast a b) : a ≠ b := by
  rintro rfl
  exact not_inPast_self a h

/-- Neither of two nodes reaches the other. -/
def Anticone (D : Dag α) (a b : α) : Prop :=
  ¬ D.Reaches a b ∧ ¬ D.Reaches b a

theorem Anticone.symm (h : D.Anticone a b) : D.Anticone b a :=
  And.symm h

theorem not_anticone_self (a : α) : ¬ D.Anticone a a :=
  fun h => h.1 (.refl a)

theorem InPast.not_anticone (h : D.InPast a b) : ¬ D.Anticone a b :=
  fun hanti => hanti.1 h.reaches

/-! ### A new node -/

/-- The graph without edges. -/
def empty : Dag α :=
  ⟨fun _ => [], ⟨fun b => ⟨b, fun _ ha => absurd ha List.not_mem_nil⟩⟩⟩

section Extend

variable [DecidableEq α] {x : α} {ps : List α}

/-- The graph with a new node, which is a parent of no node yet. -/
def extend (D : Dag α) (x : α) (ps : List α) (hnew : ∀ b, x ∉ D.parents b) (hps : x ∉ ps) :
    Dag α where
  parents := Function.update D.parents x ps
  wf := by
    have hold : ∀ b, b ≠ x → Acc (fun a c => a ∈ Function.update D.parents x ps c) b := by
      intro b
      induction b using D.wf.induction with
      | _ b ih =>
        intro hb
        refine ⟨b, fun a ha => ?_⟩
        rw [Function.update_of_ne hb] at ha
        refine ih a ha ?_
        rintro rfl
        exact hnew b ha
    refine ⟨fun b => ?_⟩
    by_cases hb : b = x
    · subst hb
      refine ⟨b, fun a ha => hold a ?_⟩
      rw [Function.update_self] at ha
      rintro rfl
      exact hps ha
    · exact hold b hb

variable {hnew : ∀ b, x ∉ D.parents b} {hps : x ∉ ps}

theorem parents_extend (b : α) :
    (D.extend x ps hnew hps).parents b = if b = x then ps else D.parents b := by
  simp only [extend, Function.update_apply]

/-- The old nodes reach what they did. -/
theorem reaches_extend (hb : b ≠ x) :
    (D.extend x ps hnew hps).Reaches a b ↔ D.Reaches a b := by
  induction b using D.wf.induction with
  | _ b ih =>
    rw [reaches_iff, reaches_iff, parents_extend, if_neg hb]
    refine or_congr_right (exists_congr fun p => and_congr_right fun hp => ih p hp ?_)
    rintro rfl
    exact hnew b hp

theorem inPast_extend (hb : b ≠ x) : (D.extend x ps hnew hps).InPast a b ↔ D.InPast a b := by
  rw [inPast_iff, inPast_iff, parents_extend, if_neg hb]
  refine exists_congr fun p => and_congr_right fun hp => reaches_extend ?_
  rintro rfl
  exact hnew b hp

/-- The new node has its parents and their past in its past. -/
theorem inPast_extend_new :
    (D.extend x ps hnew hps).InPast a x ↔ ∃ p ∈ ps, D.Reaches a p := by
  rw [inPast_iff, parents_extend, if_pos rfl]
  refine exists_congr fun p => and_congr_right fun hp => reaches_extend ?_
  rintro rfl
  exact hps hp

end Extend

/-! ### A bounded search -/

/-- The parents of every node are of lower rank. -/
def ofRank (parents : α → List α) (rank : α → ℕ) (h : ∀ b, ∀ p ∈ parents b, rank p < rank b) :
    Dag α :=
  ⟨parents, Subrelation.wf (fun {a b} hab => h b a hab) (measure rank).wf⟩

/-- The nodes found by following at most `depth` parent edges. -/
def ancestors (parents : α → List α) : ℕ → α → List α
  | 0, b => [b]
  | depth + 1, b => b :: (parents b).flatMap (ancestors parents depth)

/-- A search as deep as the rank of the node is complete. -/
theorem mem_ancestors {rank : α → ℕ} (hrank : ∀ b, ∀ p ∈ D.parents b, rank p < rank b)
    {depth : ℕ} (hdepth : rank b ≤ depth) : a ∈ ancestors D.parents depth b ↔ D.Reaches a b := by
  induction depth generalizing b with
  | zero =>
    rw [ancestors, List.mem_singleton, reaches_iff]
    refine ⟨.inl, ?_⟩
    rintro (h | ⟨p, hp, -⟩)
    · exact h
    · have hlt := hrank b p hp
      omega
  | succ depth ih =>
    rw [ancestors, List.mem_cons, List.mem_flatMap, reaches_iff]
    refine or_congr_right (exists_congr fun p => and_congr_right fun hp => ih ?_)
    have hlt := hrank b p hp
    omega

end Dag

end KeryxNode
