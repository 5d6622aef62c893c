import KeryxNode.ChainData
import KeryxNode.ChainTree
import KeryxNode.ProductionIndex

/-!
# Windowed Production

The reward of a block reads what an address produced in a trailing window of the chain that
ends at the block's selected parent `m_sp`
(`pipeline/virtual_processor/utxo_validation.rs`). The production index covers the committed
chain of the node, which may or may not contain `m_sp`; in the second case the window is the
part below the fork, read from the index, and the side blocks, summed directly. The window
never reaches below the pruning point that the header of `m_sp` commits to.

Both cases compute the production of one set of blocks of `m_sp`'s own selected chain
(`ownWindow`), so the value does not depend on the chain the node has committed. The committed
chain may start at any block below the pruning point, as that of a node synced from a later
pruning point does.

## Main results

* `windowed_production_own_chain`: the value is the production of the own window.
-/

namespace KeryxNode

open ChainTree List

/-! ### Productions of a block -/

/-- A network with what its production reads: the gate of the blue-based productions, the
subsidy of a score and the payout script of a block's coinbase. -/
structure ProductionNetwork extends Network where
  pomLevelActivation : ℕ
  calcBlockSubsidy : ℕ → ℕ
  payoutScript : Hash → ScriptPublicKey

/-- The window of one validated block. -/
inductive ProductionWindowCtx where
  /-- The selected parent is a committed chain block. -/
  | onChain (mIdx bottom : ℕ)
  /-- It is on a side chain: the committed part and the side part by address. -/
  | sideChain (common lo : ℕ) (sideBySpk : ScriptPublicKey → ℕ)

namespace ProductionNetwork

variable (N : ProductionNetwork) {α : Type*} {i : ℕ} {x : Hash}

/-- The subsidy of a score without the R&D and escrow cuts. -/
def baseMinerCut (daaScore : ℕ) : ℕ :=
  let subsidy := N.calcBlockSubsidy daaScore
  subsidy - subsidy * 500 / 10000 - subsidy * 2000 / 10000

/-- What a block's producer earns by it. -/
def blockProduction (h : Hash) : Option (ScriptPublicKey × ℕ) :=
  let cut := N.baseMinerCut (N.daaOf h)
  if cut = 0 then none else some (N.payoutScript h, cut)

/-- The productions attributed to a chain block: those of its paid blues from the gate on, its
own before. -/
def blockProductions (h : Hash) : List (ScriptPublicKey × ℕ) :=
  if N.pomLevelActivation ≤ N.daaOf h then
    (N.paidBlues h).filterMap fun b => N.blockProduction b.hash
  else (N.blockProduction h).toList

/-- The selected parent of a block. -/
def selectedParent (h : Hash) : Option Hash :=
  (N.block h).selectedParent

/-- The selected chain of a block, root first. -/
def selectedChainOf (h : Hash) : List Hash :=
  chainTo N.selectedParent N.daaOf h

/-! ### The window -/

/-- The floor of the window searches. `none` is the panic of a node that cannot revalidate. -/
def rewardWindowFloor (trustCoinbase : Bool) (sc : SelectedChain) (headerPp ownPp : Hash)
    (daaBound : ℕ) : Option ℕ :=
  match N.windowFloorInRetention sc headerPp ownPp daaBound with
  | some idx => some idx
  | none => if trustCoinbase then some ((sc.getByHash? ownPp).getD 0) else none

/-- The window of the block whose selected parent is `mSp`. -/
def productionWindowCtx (trustCoinbase : Bool) (sc : SelectedChain) (ownPp mSp : Hash) (w : ℕ) :
    Option ProductionWindowCtx := do
  let h3 := decide (N.pomLevelActivation ≤ N.daaOf mSp)
  let daaBound := N.daaOf mSp - N.ratioRewardWindowDaa
  let pruningIdx ← N.rewardWindowFloor trustCoinbase sc (N.block mSp).pruningPoint ownPp daaBound
  match sc.getByHash? mSp with
  | some mIdx =>
    let bottom := if h3 then N.chainIndexAtOrBelowDaa sc daaBound mIdx pruningIdx else mIdx - w
    return .onChain mIdx (max bottom pruningIdx)
  | none =>
    let (committedTipIndex, committedTip) ← sc.getTip?
    let (removed, added) := chainPath N.selectedParent N.daaOf committedTip mSp
    let common := committedTipIndex - removed.length
    let m := common + added.length
    let lo := max
      (if h3 then N.chainIndexAtOrBelowDaa sc daaBound common pruningIdx else m - w) pruningIdx
    let side := added.zipIdx.filter fun b =>
      if h3 then decide (daaBound < N.daaOf b.1) else decide (lo < common + 1 + b.2)
    return .sideChain common lo fun spk =>
      producedOver spk (side.map fun b => N.blockProductions b.1)

/-- The production of an address in a window. -/
def windowedProductionWithCtx (db : ProductionDb) (spk : ScriptPublicKey) :
    ProductionWindowCtx → ℕ
  | .onChain mIdx bottom => db.cumulativeAt spk mIdx - db.cumulativeAt spk bottom
  | .sideChain common lo sideBySpk =>
    (if lo < common then db.cumulativeAt spk common - db.cumulativeAt spk lo else 0)
      + sideBySpk spk

/-! ### The window on the own chain -/

/-- The blocks of the own selected chain strictly above the pruning point of its end and in its
window: the last `w` ones before the gate, those at most the daa window below it from the gate
on. -/
def ownWindow (mSp : Hash) (w : ℕ) : List Hash :=
  let own := N.selectedChainOf mSp
  let above := own.idxOf (N.block mSp).pruningPoint + 1
  if N.pomLevelActivation ≤ N.daaOf mSp then
    (own.drop above).filter fun h => decide (N.daaOf mSp < N.daaOf h + N.ratioRewardWindowDaa)
  else own.drop (max above (own.length - w))

/-- What an address produced over blocks. -/
def producedBy (spk : ScriptPublicKey) (blocks : List Hash) : ℕ :=
  producedOver spk (blocks.map N.blockProductions)

/-! ### The committed chain in the tree -/

/-- The store holds the end of the selected chain of the tip, which includes the pruning point
that `mSp` commits to and meets the selected chain of `mSp` at or above it. The score grows
from selected parent to child. -/
structure Committed (sc : SelectedChain) (tip mSp : Hash) (below : List Hash) (ppIdx : ℕ) :
    Prop where
  ranked : Ranked N.selectedParent N.daaOf
  chain : N.selectedChainOf tip = below ++ sc.hashes
  pruningPoint : sc.getByHash? (N.block mSp).pruningPoint = some ppIdx
  shared : ∃ c x, ppIdx ≤ c ∧ sc.hashes[c]? = some x ∧ x ∈ N.selectedChainOf mSp

variable {N}

theorem getByHash?_eq_some {sc : SelectedChain} {h : Hash}
    (hget : sc.getByHash? h = some i) : sc.retained ≤ i ∧ sc.hashes[i]? = some h := by
  rw [SelectedChain.getByHash?, Option.filter_eq_some_iff] at hget
  obtain ⟨hidx, hret⟩ := hget
  refine ⟨by simpa using hret, ?_⟩
  obtain ⟨hlt, heq, -⟩ := idxOf?_eq_some_iff.mp hidx
  rw [getElem?_eq_getElem hlt]
  exact congrArg some (by simpa using heq)

/-- The score of the store's block at a retained index. -/
theorem daaAt_eq {sc : SelectedChain} (hret : sc.retained ≤ i)
    (hi : sc.hashes[i]? = some x) : N.daaAt sc i = N.daaOf x := by
  rw [Network.daaAt, SelectedChain.getByIndex?, if_pos hret, hi]
  rfl

section Fork

variable {sc : SelectedChain} {tip mSp : Hash} {below : List Hash} {ppIdx : ℕ}
  (h : N.Committed sc tip mSp below ppIdx)
include h

/-- A position in the store is a position on the chain of the tip. -/
theorem Committed.getElem? (hi : sc.hashes[i]? = some x) :
    (N.selectedChainOf tip)[below.length + i]? = some x := by
  rw [h.chain, getElem?_append_right (Nat.le_add_right _ _), Nat.add_sub_cancel_left, hi]

/-- The score grows along the store. -/
theorem Committed.daa_add_le {j : ℕ} {y : Hash} (hi : sc.hashes[i]? = some x)
    (hj : sc.hashes[j]? = some y) (hij : i ≤ j) : N.daaOf x + (j - i) ≤ N.daaOf y := by
  have hle := rank_add_le h.ranked (h.getElem? hi) (h.getElem? hj) (Nat.add_le_add_left hij _)
  omega

/-- The store has a tip. -/
theorem Committed.getTip? : sc.getTip? = some (sc.hashes.length - 1, tip) := by
  obtain ⟨hret, hpp⟩ := getByHash?_eq_some h.pruningPoint
  have hlt := (List.getElem?_eq_some_iff.mp hpp).1
  have hne : sc.hashes ≠ [] := ne_nil_of_length_pos (by omega)
  have hlast : sc.hashes.getLast? = some tip := by
    have hend : (N.selectedChainOf tip).getLast? = some tip := getLast?_chainTo tip
    rwa [h.chain, getLast?_append_of_ne_nil _ hne] at hend
  rw [getLast?_eq_getElem?] at hlast
  rw [SelectedChain.getTip?, SelectedChain.getByIndex?, SelectedChain.tipIndex,
    if_pos (by omega), hlast]
  rfl

/-- **The fork**: the own chain starts as the committed one up to the last common block, at or
above the pruning point, and goes on with the side blocks. -/
theorem Committed.fork : ∃ c x side,
    N.selectedChainOf mSp = below ++ sc.hashes.take (c + 1) ++ side ∧
    ppIdx ≤ c ∧ sc.hashes[c]? = some x ∧ x ∈ N.selectedChainOf mSp ∧
    ∀ j z, c < j → sc.hashes[j]? = some z → z ∉ N.selectedChainOf mSp := by
  obtain ⟨c₀, x₀, hpp, hx₀, hmem₀⟩ := h.shared
  obtain ⟨c, x, hle, hx, hmem, hlast⟩ := exists_lastCommon (h.getElem? hx₀) hmem₀
  obtain ⟨k, rfl⟩ : ∃ k, c = below.length + k := ⟨c - below.length, by omega⟩
  obtain ⟨-, htake⟩ := take_eq_of_mem h.ranked hx hmem
  refine ⟨k, x, (N.selectedChainOf mSp).drop (below.length + k + 1), ?_, by omega, ?_, hmem,
    fun j z hj hz => hlast _ z (by omega) (h.getElem? hz)⟩
  · have hbelow : (N.selectedChainOf tip).take (below.length + k + 1)
        = below ++ sc.hashes.take (k + 1) := by
      rw [h.chain, Nat.add_assoc, take_length_add_append]
    rw [← hbelow]
    exact (take_append_drop (below.length + k + 1) (N.selectedChainOf mSp)).symm.trans
      (congrArg (· ++ _) htake.symm)
  · have hget : (N.selectedChainOf tip)[below.length + k]? = some x := hx
    rwa [h.chain, getElem?_append_right (by omega), Nat.add_sub_cancel_left] at hget

/-- The pruning point stands on the own chain where it stands in the store. -/
theorem Committed.idxOf_pruningPoint :
    (N.selectedChainOf mSp).idxOf (N.block mSp).pruningPoint = below.length + ppIdx := by
  obtain ⟨c, x, side, hown, hpp, hx, -⟩ := h.fork
  obtain ⟨-, hget⟩ := getByHash?_eq_some h.pruningPoint
  have hc := (List.getElem?_eq_some_iff.mp hx).1
  have hpos : (N.selectedChainOf mSp)[below.length + ppIdx]? = some (N.block mSp).pruningPoint := by
    rw [hown, append_assoc, getElem?_append_right (by omega), Nat.add_sub_cancel_left,
      getElem?_append_left (by rw [length_take]; omega),
      getElem?_take_of_lt (by omega), hget]
  obtain ⟨hlt, heq⟩ := List.getElem?_eq_some_iff.mp hpos
  rw [← heq]
  exact (nodup_chainTo h.ranked mSp).idxOf_getElem _ hlt

/-- The score at an index grows along the store, as pruned indexes read zero. -/
theorem Committed.daaAt_mono {j : ℕ} (hij : i ≤ j) (hj : j < sc.hashes.length) :
    N.daaAt sc i ≤ N.daaAt sc j := by
  rcases Nat.lt_or_ge i sc.retained with hret | hret
  · rw [Network.daaAt, SelectedChain.getByIndex?, if_neg hret.not_ge]
    exact Nat.zero_le _
  · have hi : sc.hashes[i]? = some sc.hashes[i] := getElem?_eq_getElem (hij.trans_lt hj)
    have hj' : sc.hashes[j]? = some sc.hashes[j] := getElem?_eq_getElem hj
    rw [daaAt_eq hret hi, daaAt_eq (hret.trans hij) hj']
    have := h.daa_add_le hi hj' hij
    omega

/-- **The search cuts the chain at the window**: above the pruning point and up to `hi`, the
indexes above the result are those of the window. -/
theorem Committed.chainIndexAtOrBelowDaa_spec {hi : ℕ} (hpp : ppIdx ≤ hi)
    (hx : sc.hashes[hi]? = some x) (hdaa : N.daaOf x ≤ N.daaOf mSp) :
    let r := N.chainIndexAtOrBelowDaa sc (N.daaOf mSp - N.ratioRewardWindowDaa) hi ppIdx
    ppIdx ≤ r ∧ r ≤ hi ∧ ∀ i y, ppIdx < i → i ≤ hi → sc.hashes[i]? = some y →
      (r < i ↔ N.daaOf mSp < N.daaOf y + N.ratioRewardWindowDaa) := by
  intro r
  have hlt := (List.getElem?_eq_some_iff.mp hx).1
  obtain ⟨hret, hget⟩ := getByHash?_eq_some h.pruningPoint
  obtain ⟨hlo, hhi, hat, habove⟩ :
      max (hi - N.ratioRewardWindowDaa) ppIdx ≤ r ∧ r ≤ hi ∧
        (r = max (hi - N.ratioRewardWindowDaa) ppIdx ∨
          N.daaAt sc r ≤ N.daaOf mSp - N.ratioRewardWindowDaa) ∧
        ∀ i, r < i → i ≤ hi → N.daaOf mSp - N.ratioRewardWindowDaa < N.daaAt sc i :=
    indexAtOrBelow_spec (fun i j hij hj => h.daaAt_mono hij (hj.trans_lt hlt))
      (max_le (Nat.sub_le hi N.ratioRewardWindowDaa) hpp)
  refine ⟨(le_max_right _ _).trans hlo, hhi, fun i y hi₁ hi₂ hy => ⟨fun hri => ?_, fun hin => ?_⟩⟩
  · have hbound := habove i hri hi₂
    rw [daaAt_eq (by omega) hy] at hbound
    omega
  · by_contra hir
    have hrlt : r < sc.hashes.length := hhi.trans_lt hlt
    have hr : sc.hashes[r]? = some sc.hashes[r] := getElem?_eq_getElem hrlt
    have hyr := h.daa_add_le hy hr (by omega)
    rcases hat with hfloor | hbound
    · -- The search floor is the window's depth below `hi`: one index costs at least one point.
      have hrx := h.daa_add_le hr hx hhi
      omega
    · -- A block above the pruning point has a positive score.
      have hpos := h.daa_add_le hget hy hi₁.le
      rw [daaAt_eq (by omega) hr] at hbound
      omega

end Fork

/-! ### The two cases -/

/-- A filter that keeps exactly the positions from `k` on. -/
theorem filter_eq_drop {p : α → Bool} {l : List α} {k : ℕ}
    (h : ∀ i x, l[i]? = some x → (k ≤ i ↔ p x = true)) : l.filter p = l.drop k := by
  conv_lhs => rw [← take_append_drop k l]
  rw [filter_append]
  have htake : (l.take k).filter p = [] := by
    refine filter_eq_nil_iff.mpr fun x hx hp => ?_
    obtain ⟨i, hi⟩ := getElem?_of_mem hx
    rw [getElem?_take] at hi
    split at hi
    · next hik => exact absurd ((h i x hi).mpr hp) hik.not_ge
    · cases hi
  have hdrop : (l.drop k).filter p = l.drop k := by
    refine filter_eq_self.mpr fun x hx => ?_
    obtain ⟨i, hi⟩ := getElem?_of_mem hx
    rw [getElem?_drop] at hi
    exact (h _ x hi).mp (Nat.le_add_right k i)
  rw [htake, hdrop, nil_append]

/-- The side blocks above an index. -/
theorem map_fst_filter_zipIdx (l : List α) (lo common : ℕ) :
    (l.zipIdx.filter fun b => decide (lo < common + 1 + b.2)).map Prod.fst
      = l.drop (lo - common) := by
  have hfilter : l.zipIdx.filter (fun b => decide (lo < common + 1 + b.2))
      = l.zipIdx.drop (lo - common) := by
    refine filter_eq_drop fun i b hb => ?_
    rw [getElem?_zipIdx, Option.map_eq_some_iff] at hb
    obtain ⟨x, -, rfl⟩ := hb
    simp only [decide_eq_true_eq]
    omega
  rw [hfilter, map_drop, zipIdx_map_fst]

/-- The side blocks with a property of the block. -/
theorem map_fst_filter_fst (l : List α) (p : α → Bool) :
    (l.zipIdx.filter fun b => p b.1).map Prod.fst = l.filter p := by
  conv_rhs => rw [← zipIdx_map_fst 0 l, filter_map]
  rfl

section Window

variable {sc : SelectedChain} {tip mSp : Hash} {below : List Hash} {ppIdx : ℕ} {side : List Hash}

open ProductionDb in
/-- The difference of two reads of the index is the production in between. -/
theorem cumulativeAt_sub {db : ProductionDb} {floor lo hi : ℕ} {spk : ScriptPublicKey}
    (hdb : PrefixIndexed db ((sc.hashes.drop 1).map N.blockProductions) floor)
    (hspk : spk.InRange) (hfloor : floor - 1 ≤ lo) (hle : lo ≤ hi) (hhi : hi < sc.hashes.length) :
    db.cumulativeAt spk hi - db.cumulativeAt spk lo
      = N.producedBy spk ((sc.hashes.take (hi + 1)).drop (lo + 1)) := by
  have hlen := hdb.length_lt
  rw [length_map, length_drop] at hlen
  have hslice : (((sc.hashes.drop 1).map N.blockProductions).take hi).drop lo
      = ((sc.hashes.take (hi + 1)).drop (lo + 1)).map N.blockProductions := by
    have hinner : (sc.hashes.take (hi + 1)).drop 1 = (sc.hashes.drop 1).take hi := by
      rw [drop_take, Nat.add_sub_cancel]
    rw [← map_take, ← map_drop, Nat.add_comm lo 1, ← drop_drop, hinner]
  rw [hdb.cumulativeAt_eq hspk hfloor (by omega), hdb.cumulativeAt_eq hspk (hfloor.trans hle)
    (by omega), producedOver_take_add spk _ hle, Nat.add_sub_cancel_left, hslice]
  rfl

/-- The shared part of a side chain's window. -/
theorem shared_eq {db : ProductionDb} {floor lo c : ℕ} {spk : ScriptPublicKey}
    (hdb : db.PrefixIndexed ((sc.hashes.drop 1).map N.blockProductions) floor)
    (hspk : spk.InRange) (hfloor : floor ≤ ppIdx + 1) (hlo : ppIdx ≤ lo)
    (hc : c < sc.hashes.length) :
    (if lo < c then db.cumulativeAt spk c - db.cumulativeAt spk lo else 0)
      = N.producedBy spk ((sc.hashes.take (c + 1)).drop (lo + 1)) := by
  split
  · next hlt => exact cumulativeAt_sub hdb hspk (by omega) hlt.le hc
  · next hge =>
    rw [drop_eq_nil_of_le (by rw [length_take]; omega)]
    rfl

theorem producedBy_append (spk : ScriptPublicKey) (l l' : List Hash) :
    N.producedBy spk (l ++ l') = N.producedBy spk l + N.producedBy spk l' := by
  rw [producedBy, map_append, producedOver_append, producedBy, producedBy]

variable (h : N.Committed sc tip mSp below ppIdx)
include h

/-- The floor of the window searches is the pruning point of the header. -/
theorem Committed.rewardWindowFloor (trustCoinbase : Bool) (ownPp : Hash) (daaBound : ℕ) :
    N.rewardWindowFloor trustCoinbase sc (N.block mSp).pruningPoint ownPp daaBound
      = some ppIdx := by
  rw [ProductionNetwork.rewardWindowFloor, Network.windowFloorInRetention, h.pruningPoint]

/-- The scores of the own chain lead up to that of its end. -/
theorem Committed.daaOf_le (hx : x ∈ N.selectedChainOf mSp) :
    N.daaOf x ≤ N.daaOf mSp := by
  obtain ⟨i, hi⟩ := getElem?_of_mem hx
  have hend : (N.selectedChainOf mSp).getLast? = some mSp := getLast?_chainTo mSp
  rw [getLast?_eq_getElem?] at hend
  have hlt := (List.getElem?_eq_some_iff.mp hi).1
  have := rank_add_le h.ranked hi hend (by omega)
  omega

/-- **The own window before the gate**: the part of the shared chain above the bottom and the
side blocks above it. -/
theorem Committed.ownWindow_last {c w : ℕ}
    (hown : N.selectedChainOf mSp = below ++ sc.hashes.take (c + 1) ++ side)
    (hc : c < sc.hashes.length) (hgate : ¬ N.pomLevelActivation ≤ N.daaOf mSp) :
    let lo := max (c + side.length - w) ppIdx
    N.ownWindow mSp w = (sc.hashes.take (c + 1)).drop (lo + 1) ++ side.drop (lo - c) := by
  intro lo
  have hshared : (sc.hashes.take (c + 1)).length = c + 1 := length_take_of_le hc
  have hbottom : max (below.length + ppIdx + 1) ((N.selectedChainOf mSp).length - w)
      = below.length + (lo + 1) := by
    rw [hown, length_append, length_append]
    omega
  rw [ownWindow, if_neg hgate, h.idxOf_pruningPoint, hbottom, hown, append_assoc,
    drop_length_add_append, drop_append]
  congr 2
  omega

/-- **The own window from the gate on.** -/
theorem Committed.ownWindow_daa {c w : ℕ}
    (hown : N.selectedChainOf mSp = below ++ sc.hashes.take (c + 1) ++ side) (hpp : ppIdx ≤ c)
    (hx : sc.hashes[c]? = some x) (hmem : x ∈ N.selectedChainOf mSp)
    (hgate : N.pomLevelActivation ≤ N.daaOf mSp) :
    let daaBound := N.daaOf mSp - N.ratioRewardWindowDaa
    let lo := N.chainIndexAtOrBelowDaa sc daaBound c ppIdx
    ppIdx ≤ lo ∧ lo ≤ c ∧ N.ownWindow mSp w = (sc.hashes.take (c + 1)).drop (lo + 1)
      ++ side.filter fun b => decide (daaBound < N.daaOf b) := by
  intro daaBound lo
  obtain ⟨hlo, hle, hcut⟩ : ppIdx ≤ lo ∧ lo ≤ c ∧ ∀ i y, ppIdx < i → i ≤ c →
      sc.hashes[i]? = some y → (lo < i ↔ N.daaOf mSp < N.daaOf y + N.ratioRewardWindowDaa) :=
    h.chainIndexAtOrBelowDaa_spec hpp hx (h.daaOf_le hmem)
  have hc := (List.getElem?_eq_some_iff.mp hx).1
  have hshared : (sc.hashes.take (c + 1)).length = c + 1 := length_take_of_le hc
  refine ⟨hlo, hle, ?_⟩
  rw [ownWindow, if_pos hgate, h.idxOf_pruningPoint, hown, append_assoc, Nat.add_assoc,
    drop_length_add_append, drop_append_of_le_length (by omega), filter_append]
  congr 1
  · have hdrop : (sc.hashes.take (c + 1)).drop (lo + 1)
        = ((sc.hashes.take (c + 1)).drop (ppIdx + 1)).drop (lo - ppIdx) := by
      rw [drop_drop]
      congr 1
      omega
    rw [hdrop]
    refine filter_eq_drop fun i y hy => ?_
    rw [getElem?_drop, getElem?_take] at hy
    split at hy
    · have := hcut _ y (by omega) (by omega) hy
      rw [decide_eq_true_eq]
      omega
    · cases hy
  · -- A side block has a positive score, so the truncated bound decides as the exact one.
    refine filter_congr fun y hy => ?_
    obtain ⟨j, hj⟩ := getElem?_of_mem hy
    have hpos : (N.selectedChainOf mSp)[below.length + (c + 1) + j]? = some y := by
      rw [hown, getElem?_append_right (by rw [length_append]; omega),
        length_append, hshared, Nat.add_sub_cancel_left, hj]
    have hx' : (N.selectedChainOf mSp)[below.length + c]? = some x :=
      (take_eq_of_mem h.ranked (h.getElem? hx) hmem).1
    have hrank := rank_add_le h.ranked hx' hpos (by omega)
    exact decide_eq_decide.mpr (by omega)

/-- The path from the tip to `mSp` takes the store back to the fork and adds the side blocks. -/
theorem Committed.chainPath_tip {c : ℕ}
    (hown : N.selectedChainOf mSp = below ++ sc.hashes.take (c + 1) ++ side)
    (hx : sc.hashes[c]? = some x) (hmem : x ∈ N.selectedChainOf mSp)
    (hlast : ∀ j z, c < j → sc.hashes[j]? = some z → z ∉ N.selectedChainOf mSp) :
    chainPath N.selectedParent N.daaOf tip mSp = ((sc.hashes.drop (c + 1)).reverse, side) := by
  have hc := (List.getElem?_eq_some_iff.mp hx).1
  have hlast' : ∀ j z, below.length + c < j → (N.selectedChainOf tip)[j]? = some z →
      z ∉ N.selectedChainOf mSp := by
    intro j z hj hz
    rw [h.chain, getElem?_append_right (by omega)] at hz
    exact hlast _ z (by omega) hz
  have hremoved : (N.selectedChainOf tip).drop (below.length + c + 1) = sc.hashes.drop (c + 1) := by
    rw [h.chain, Nat.add_assoc, drop_length_add_append]
  have hadded : (N.selectedChainOf mSp).drop (below.length + c + 1) = side := by
    have hlen : (below ++ sc.hashes.take (c + 1)).length = below.length + c + 1 := by
      rw [length_append, length_take_of_le hc, Nat.add_assoc]
    rw [hown, ← hlen, drop_left]
  have hpath := chainPath_eq h.ranked (h.getElem? hx) hmem hlast'
  rwa [← selectedChainOf, ← selectedChainOf, hremoved, hadded] at hpath

end Window

open ProductionDb in
/-- **Windowed production is a function of the own chain.** For every committed chain that meets
the selected chain of `mSp` at or above the pruning point of its header, the window is resolved
and reads the production over the own window. -/
theorem windowed_production_own_chain (N : ProductionNetwork) (trustCoinbase : Bool)
    (sc : SelectedChain) (tip ownPp mSp : Hash) (below : List Hash) (ppIdx w : ℕ)
    (h : N.Committed sc tip mSp below ppIdx) (db : ProductionDb) (floor : ℕ)
    (hdb : PrefixIndexed db ((sc.hashes.drop 1).map N.blockProductions) floor)
    (hfloor : floor ≤ ppIdx + 1) (spk : ScriptPublicKey) (hspk : spk.InRange) :
    (N.productionWindowCtx trustCoinbase sc ownPp mSp w).map (windowedProductionWithCtx db spk)
      = some (N.producedBy spk (N.ownWindow mSp w)) := by
  obtain ⟨c, x, side, hown, hpp, hx, hmem, hlast⟩ := h.fork
  have hc := (List.getElem?_eq_some_iff.mp hx).1
  rw [productionWindowCtx]
  simp only [h.rewardWindowFloor, Option.bind_eq_bind, Option.bind_some]
  cases hidx : sc.getByHash? mSp with
  | some mIdx =>
    -- The committed chain contains `mSp`: there are no side blocks.
    obtain ⟨-, hmIdx⟩ := getByHash?_eq_some hidx
    have hle : mIdx ≤ c := by
      by_contra hgt
      exact hlast mIdx mSp (by omega) hmIdx (mem_of_getLast? (getLast?_chainTo mSp))
    have hlen := length_chainTo_of_getElem? h.ranked (h.getElem? hmIdx)
    have hlen' := congrArg length hown
    rw [length_append, length_append, length_take_of_le hc] at hlen'
    have hlen'' : (N.selectedChainOf mSp).length = below.length + mIdx + 1 := hlen
    obtain rfl : mIdx = c := by omega
    obtain rfl : side = [] := length_eq_zero_iff.mp (by omega)
    by_cases hgate : N.pomLevelActivation ≤ N.daaOf mSp
    · obtain ⟨hlo, hle, hwindow⟩ := h.ownWindow_daa (w := w) hown hpp hx hmem hgate
      simp only [decide_eq_true hgate, if_true, max_eq_left hlo]
      rw [hwindow, filter_nil, append_nil,
        ← cumulativeAt_sub hdb hspk (by omega) hle hc]
      rfl
    · have hwindow := h.ownWindow_last (w := w) hown hc hgate
      simp only [decide_eq_false hgate]
      rw [hwindow, drop_nil, append_nil, ← cumulativeAt_sub hdb hspk (by omega) (by omega) hc]
      rfl
  | none =>
    -- The window is cut at the fork.
    have hcommon : sc.hashes.length - 1 - (sc.hashes.drop (c + 1)).reverse.length = c := by
      rw [length_reverse, length_drop]
      omega
    simp only [h.getTip?, Option.bind_some, h.chainPath_tip hown hx hmem hlast, hcommon]
    by_cases hgate : N.pomLevelActivation ≤ N.daaOf mSp
    · obtain ⟨hlo, hle, hwindow⟩ := h.ownWindow_daa (w := w) hown hpp hx hmem hgate
      simp only [decide_eq_true hgate, if_true, max_eq_left hlo]
      rw [hwindow, producedBy_append, ← shared_eq hdb hspk hfloor hlo hc, ← map_fst_filter_fst side]
      simp only [producedBy, map_map]
      rfl
    · have hwindow := h.ownWindow_last (w := w) hown hc hgate
      simp only [decide_eq_false hgate]
      rw [hwindow, producedBy_append, ← shared_eq hdb hspk hfloor (le_max_right _ _) hc,
        ← map_fst_filter_zipIdx]
      simp only [producedBy, map_map]
      rfl

/-- Blocks 1 and 2 are committed above the genesis. Block 3 is a side child of block 1 past the
gate, merges block 2, and has block 1 and itself in its window. -/
def sideNetwork : ProductionNetwork where
  toNetwork := Network.ofBlocks { mainnetParams with ratioRewardWindowDaa := 3 }
    [(1, { daaScore := 1, blueScore := 1, pruningPoint := 0, selectedParent := some 0 }),
      (2, { daaScore := 2, blueScore := 2, pruningPoint := 0, selectedParent := some 1 }),
      (3, { daaScore := 3, blueScore := 3, pruningPoint := 0, selectedParent := some 1,
            mergesetBlues := [⟨2, false, 0, 10000, ⟨0, [1]⟩, none⟩] })]
  pomLevelActivation := 3
  calcBlockSubsidy := fun _ => 10000
  payoutScript := fun _ => ⟨0, [1]⟩

theorem sideNetwork_ranked : Ranked sideNetwork.selectedParent sideNetwork.daaOf := by
  intro a p hp
  by_cases h₁ : a = 1
  · subst h₁
    obtain rfl : (0 : Hash) = p := Option.some.inj hp
    decide
  by_cases h₂ : a = 2
  · subst h₂
    obtain rfl : (1 : Hash) = p := Option.some.inj hp
    decide
  by_cases h₃ : a = 3
  · subst h₃
    obtain rfl : (1 : Hash) = p := Option.some.inj hp
    decide
  · have hnone : sideNetwork.selectedParent a = none := by
      simp [selectedParent, sideNetwork, Network.ofBlocks, lookup_cons, beq_false_of_ne h₁,
        beq_false_of_ne h₂, beq_false_of_ne h₃]
    rw [hnone] at hp
    cases hp

theorem windowed_production_own_chain_side :
    let n := [PrefixStep.change 0 [[(⟨0, [1]⟩, 7500)], [(⟨0, [1]⟩, 7500)]]].foldl PrefixNode.step {}
    (sideNetwork.productionWindowCtx false ⟨[0, 1, 2], 0⟩ 0 3 1).map
      (windowedProductionWithCtx n.db ⟨0, [1]⟩) = some 15000 := by
  intro n
  have hspk : ScriptPublicKey.InRange ⟨0, [1]⟩ := ⟨by decide, by decide⟩
  have hchain : ([1, 2] : List Hash).map sideNetwork.blockProductions
      = [[(⟨0, [1]⟩, 7500)], [(⟨0, [1]⟩, 7500)]] := by decide
  have hindexed : n.db.PrefixIndexed [[(⟨0, [1]⟩, 7500)], [(⟨0, [1]⟩, 7500)]] 0 := by
    refine prefixIndexed_run [.change 0 [[(⟨0, [1]⟩, 7500)], [(⟨0, [1]⟩, 7500)]]]
      prefixIndexed_empty ⟨⟨by decide, by decide, fun ps hps p hp => ?_, by decide⟩, trivial⟩
    obtain rfl : p = (⟨0, [1]⟩, 7500) := by
      revert ps p
      decide
    exact hspk
  refine (windowed_production_own_chain sideNetwork false ⟨[0, 1, 2], 0⟩ 2 0 3 [] 0 1
    ⟨sideNetwork_ranked, by decide, by decide, 1, 1, by decide, by decide, by decide⟩ n.db 0
    (hchain ▸ hindexed) (by decide) ⟨0, [1]⟩ hspk).trans ?_
  decide

end ProductionNetwork

end KeryxNode
