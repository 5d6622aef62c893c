import KeryxNode.ChainData

/-!
# The Pruning Point of a Block

The pruning point a header commits to (`consensus/src/processes/pruning.rs`). Every block knows the
most recent pruning sample from its point of view; the pruning point is found by hopping from
sample to sample until one lies deep enough. The sampling rule of the manager compares a block with
the sample its selected parent knew, the one of the service ledger compares it with its selected
parent. Along a chain whose blocks were derived this way both agree: all blocks from a sample up to
the next one share a finality score.
-/

namespace KeryxNode

open Option List

/-- What the pruning point manager reads: the headers of a network, the depths, and the store of
the most recent sample of every block. -/
structure PruningPointManager where
  network : Network
  pruningDepth : ℕ
  genesisHash : Hash
  pruningSampleFromPov : Hash → Option Hash

/-- The most recent sample from a block's point of view, and its pruning point. -/
structure PruningPointReply where
  pruningSample : Hash
  pruningPoint : Hash
  deriving DecidableEq

namespace PruningPointManager

variable (M : PruningPointManager)

def blueScore (h : Hash) : ℕ :=
  (M.network.block h).blueScore

/-- The sampling epoch of a blue score. -/
def finalityScore (blueScore : ℕ) : ℕ :=
  blueScore / M.network.finalityDepth

/-- Whether a block opens an epoch, compared with a chain ancestor of the epoch before it. -/
def isPruningSample (selfBlueScore epochChainAncestorBlueScore : ℕ) : Bool :=
  decide (M.finalityScore epochChainAncestorBlueScore < M.finalityScore selfBlueScore)

/-- The number of hops from a sample to its pruning point. -/
def pruningSamplesSteps : ℕ :=
  (M.pruningDepth + M.network.finalityDepth - 1) / M.network.finalityDepth

/-- The most recent sample from the point of view of a block with this selected parent. -/
def recentSample (selectedParent : Hash) : Option Hash :=
  if selectedParent = M.genesisHash then some M.genesisHash
  else (M.pruningSampleFromPov selectedParent).map fun sample =>
    if M.isPruningSample (M.blueScore selectedParent) (M.blueScore sample) then selectedParent
    else sample

/-- Hops from sample to sample until one is deep enough. A sample stops after the number of hops
from sample to pruning point, any block at the pruning point of its selected parent. -/
def hop (blueScore : ℕ) (isSelfPruningSample : Bool) (selectedParentPruningPoint : Hash) :
    ℕ → ℕ → Hash → Option Hash
  | 0, _, _ => none
  | rounds + 1, steps, current =>
    if current = M.genesisHash then some current
    else if M.blueScore current + M.pruningDepth ≤ blueScore then some current
    else if isSelfPruningSample ∧ steps = M.pruningSamplesSteps then some current
    else if current = selectedParentPruningPoint then some current
    else (M.pruningSampleFromPov current).bind
      (hop blueScore isSelfPruningSample selectedParentPruningPoint rounds (steps + 1))

/-- The sample and the pruning point of a block with this selected parent and blue score. Every hop
lowers the blue score, which bounds the rounds; `none` is a missing entry of the store. -/
def expectedHeaderPruningPoint (selectedParent : Hash) (blueScore : ℕ) :
    Option PruningPointReply := do
  let pruningSample ← M.recentSample selectedParent
  let isSelfPruningSample := M.isPruningSample blueScore (M.blueScore selectedParent)
  let selectedParentPruningPoint := (M.network.block selectedParent).pruningPoint
  let pruningPoint ← M.hop blueScore isSelfPruningSample selectedParentPruningPoint
    (M.blueScore pruningSample + 1) 1 pruningSample
  some { pruningSample, pruningPoint }

/-! ### Chains -/

/-- A block derived from its selected parent: its blue score is higher, its sample is in the store
and its header commits to the expected pruning point. -/
@[mk_iff]
structure Derived (selectedParent h : Hash) : Prop where
  parent : (M.network.block h).selectedParent = some selectedParent
  blue : M.blueScore selectedParent < M.blueScore h
  reply : M.expectedHeaderPruningPoint selectedParent (M.blueScore h)
    = (M.pruningSampleFromPov h).map fun sample => ⟨sample, (M.network.block h).pruningPoint⟩
  stored : (M.pruningSampleFromPov h).isSome = true

instance (selectedParent h : Hash) : Decidable (M.Derived selectedParent h) :=
  decidable_of_iff' _ (M.derived_iff selectedParent h)

/-- A chain from genesis, each block derived from the one before. -/
structure Built (chain : List Hash) : Prop where
  genesis : chain.head? = some M.genesisHash
  derived : chain.IsChain M.Derived

/-- A block that can be a pruning point: genesis, or a sample block of the service ledger. -/
def IsSample (h : Hash) : Prop :=
  h = M.genesisHash ∨ M.network.isPruningSampleBlock h = true

namespace Built

variable {M} {chain : List Hash} {i : ℕ}

section

variable (h : M.Built chain) {a b : Hash}
include h

theorem genesis_getElem? : chain[0]? = some M.genesisHash := by
  rw [← head?_eq_getElem?, h.genesis]

/-- Blue scores increase along the chain. -/
theorem blueScore_lt {j : ℕ} (hij : i < j) (ha : chain[i]? = some a)
    (hb : chain[j]? = some b) : M.blueScore a < M.blueScore b := by
  have hpairwise := isChain_iff_pairwise.mp (h.derived.imp fun _ _ hd => hd.blue)
  obtain ⟨hj, rfl⟩ := List.getElem?_eq_some_iff.mp hb
  obtain ⟨hi, rfl⟩ := List.getElem?_eq_some_iff.mp ha
  exact pairwise_iff_getElem.mp hpairwise i j hi hj hij

theorem ne_genesis (hb : chain[i + 1]? = some b) :
    b ≠ M.genesisHash := by
  rintro rfl
  exact lt_irrefl _ (h.blueScore_lt (Nat.succ_pos i) h.genesis_getElem? hb)

/-- The store has for a block what the rule finds at its selected parent. -/
theorem pruningSampleFromPov (hb : chain[i + 1]? = some b) :
    ∃ a sample, chain[i]? = some a ∧ M.Derived a b ∧ M.pruningSampleFromPov b = some sample ∧
      M.recentSample a = some sample := by
  obtain ⟨hlt, rfl⟩ := List.getElem?_eq_some_iff.mp hb
  have hderived := isChain_iff_getElem.mp h.derived i hlt
  obtain ⟨sample, hsample⟩ := isSome_iff_exists.mp hderived.stored
  have hreply := hderived.reply
  rw [hsample, map_some, expectedHeaderPruningPoint] at hreply
  simp only [bind_eq_bind, Option.bind_eq_some_iff] at hreply
  obtain ⟨recent, hrecent, pruningPoint, -, hreply⟩ := hreply
  have heq : recent = sample := congrArg PruningPointReply.pruningSample (some.inj hreply)
  exact ⟨_, sample, getElem?_eq_getElem _, hderived, hsample, heq ▸ hrecent⟩

/-- **The sample of a block** is on its chain, is a possible pruning point and has the finality
score of the selected parent. The induction is on the height of the selected parent: all blocks from
a sample up to the next one share a finality score. -/
theorem recentSample (ha : chain[i]? = some a) :
    ∃ sample, M.recentSample a = some sample ∧ (∃ j ≤ i, chain[j]? = some sample) ∧
      M.IsSample sample ∧
      M.finalityScore (M.blueScore sample) = M.finalityScore (M.blueScore a) := by
  induction i generalizing a with
  | zero =>
    obtain rfl := mem_unique h.genesis_getElem? ha
    exact ⟨_, if_pos rfl, ⟨0, le_refl 0, ha⟩, Or.inl rfl, rfl⟩
  | succ i ih =>
    obtain ⟨parent, known, hparent, hderived, hknown, hrecent⟩ := h.pruningSampleFromPov ha
    obtain ⟨_, hsame, ⟨j, hj, hat⟩, hsample, hscore⟩ := ih hparent
    obtain rfl := mem_unique hrecent hsame
    rw [PruningPointManager.recentSample, if_neg (h.ne_genesis ha), hknown, map_some]
    by_cases hopens : M.isPruningSample (M.blueScore a) (M.blueScore known) = true
    · rw [if_pos hopens]
      refine ⟨a, rfl, ⟨i + 1, le_refl _, ha⟩, Or.inr ?_, rfl⟩
      have hlt := of_decide_eq_true hopens
      rw [hscore] at hlt
      rw [Network.isPruningSampleBlock, hderived.parent]
      exact decide_eq_true hlt
    · rw [if_neg hopens]
      refine ⟨known, rfl, ⟨j, Nat.le_succ_of_le hj, hat⟩, hsample, ?_⟩
      have hge := not_lt.mp fun hlt => hopens (decide_eq_true hlt)
      have hle := (h.blueScore_lt (Nat.lt_succ_of_le hj) hat ha).le
      exact le_antisymm (Nat.div_le_div_right hle) hge

/-- Hopping ends at a possible pruning point of the chain. -/
theorem hop (blueScore : ℕ) (isSelfPruningSample : Bool) (selectedParentPruningPoint : Hash)
    {rounds : ℕ} (steps : ℕ) {j : ℕ} {current : Hash} (hrounds : M.blueScore current < rounds)
    (hcurrent : chain[j]? = some current) (hsample : M.IsSample current) :
    ∃ pruningPoint, M.hop blueScore isSelfPruningSample selectedParentPruningPoint rounds steps
        current = some pruningPoint ∧ (∃ k ≤ j, chain[k]? = some pruningPoint) ∧
      M.IsSample pruningPoint := by
  induction rounds generalizing steps j current with
  | zero => exact absurd hrounds (Nat.not_lt_zero _)
  | succ rounds ih =>
    rw [PruningPointManager.hop]
    by_cases hgenesis : current = M.genesisHash
    · rw [if_pos hgenesis]
      exact ⟨current, rfl, ⟨j, le_refl j, hcurrent⟩, hsample⟩
    · rw [if_neg hgenesis]
      split
      · exact ⟨current, rfl, ⟨j, le_refl j, hcurrent⟩, hsample⟩
      · split
        · exact ⟨current, rfl, ⟨j, le_refl j, hcurrent⟩, hsample⟩
        · split
          · exact ⟨current, rfl, ⟨j, le_refl j, hcurrent⟩, hsample⟩
          · cases j with
            | zero =>
              exact absurd (mem_unique hcurrent h.genesis_getElem?) hgenesis
            | succ j =>
              obtain ⟨parent, next, hparent, -, hnext, hrecent⟩ := h.pruningSampleFromPov hcurrent
              obtain ⟨_, hsame, ⟨k, hk, hat⟩, hnextSample, -⟩ := h.recentSample hparent
              obtain rfl := mem_unique hrecent hsame
              have hlower := h.blueScore_lt (Nat.lt_succ_of_le hk) hat hcurrent
              obtain ⟨pruningPoint, hhop, ⟨l, hl, hon⟩, hresult⟩ :=
                ih (steps + 1) (by omega) hat hnextSample
              rw [hnext]
              exact ⟨pruningPoint, hhop, ⟨l, by omega, hon⟩, hresult⟩

/-- **Every block has a pruning point** on its chain, and it is genesis or a sample block of the
service ledger. -/
theorem expectedHeaderPruningPoint {selectedParent : Hash}
    (hparent : chain[i]? = some selectedParent) (blueScore : ℕ) :
    ∃ reply, M.expectedHeaderPruningPoint selectedParent blueScore = some reply ∧
      (∃ j ≤ i, chain[j]? = some reply.pruningPoint) ∧ M.IsSample reply.pruningPoint := by
  obtain ⟨sample, hrecent, ⟨j, hj, hat⟩, hsample, -⟩ := h.recentSample hparent
  obtain ⟨pruningPoint, hhop, ⟨k, hk, hon⟩, hresult⟩ := h.hop blueScore
    (M.isPruningSample blueScore (M.blueScore selectedParent))
    (M.network.block selectedParent).pruningPoint 1 (Nat.lt_succ_self _) hat hsample
  refine ⟨⟨sample, pruningPoint⟩, ?_, ⟨k, hk.trans hj, hon⟩, hresult⟩
  rw [PruningPointManager.expectedHeaderPruningPoint, hrecent]
  simp only [bind_eq_bind, bind_some, hhop]

end

end Built

end PruningPointManager

end KeryxNode
