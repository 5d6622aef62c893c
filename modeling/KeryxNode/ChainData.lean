import Mathlib.Data.Multiset.AddSub
import KeryxNode.Collateral

/-!
# Chain Data

What the service bond reads of the block DAG, as
`consensus/src/pipeline/virtual_processor/service_bond.rs` reads it: the producers, escrow
claims, requests and responses of a committed chain block, the selected-chain store, and the
cohort of a tier seen from a chain block.

A `Block` holds the committed data of one chain block that these reads use — header fields,
its paid mergeset blues, its coinbase outputs, the inference transactions it accepts in
acceptance order. Decoding of payloads and scripts and the signature check of a response are
outside the model: a blue carries the escrow key it announces, an output the key its CSV
script locks, a response its verified responder.
-/

namespace KeryxNode

/-! ### Parameters and blocks -/

/-- Consensus parameters the service bond reads. An activation is the first active score. -/
structure Params where
  pomV3Activation : ℕ
  serviceBondV2Activation : ℕ
  rewardRoutingActivation : ℕ
  serviceLedgerActivation : ℕ
  finalityDepth : ℕ
  serviceBurnableWindowDaa : ℕ
  ratioRewardWindowDaa : ℕ

/-- The main network. Its ledger gate is not scheduled. -/
def mainnetParams : Params :=
  { pomV3Activation := 76316623
    serviceBondV2Activation := 77525000
    rewardRoutingActivation := 79210000
    serviceLedgerActivation := 2 ^ 64 - 1
    finalityDepth := 432000
    serviceBurnableWindowDaa := serviceBurnableWindowDaa
    ratioRewardWindowDaa := 864000 }

/-- The test network, with its shortened depths and windows. -/
def testnetParams : Params :=
  { pomV3Activation := 0
    serviceBondV2Activation := 0
    rewardRoutingActivation := 500
    serviceLedgerActivation := 500
    finalityDepth := 2000
    serviceBurnableWindowDaa := 2000
    ratioRewardWindowDaa := 1000 }

/-- A blue of a chain block's mergeset: whether it is outside the DAA window, its committed
tier, its subsidy, its payout script and the escrow key it announces. -/
structure MergesetBlue where
  hash : Hash
  nonDaa : Bool := false
  pomTier : ℕ
  subsidy : ℕ
  scriptPublicKey : ScriptPublicKey
  escrowPubkey : Option Hash
  deriving DecidableEq

/-- A coinbase output: its value and the key it locks if its script is a CSV escrow. -/
structure CoinbaseOutput where
  value : ℕ
  csvEscrowPubkey : Option Hash
  deriving DecidableEq

/-- An accepted inference transaction. A request has the position of its model in the tier
lineup, if it is in the lineup; a response has its verified responder, if the signature
verifies. -/
inductive AcceptedTx where
  | request (id payloadDigest : Hash) (tier : Option ℕ) (maxTokens inferenceReward : ℕ)
  | response (requestHash : Hash) (responder : Option Hash)
  deriving DecidableEq

/-- The committed data of a chain block. -/
structure Block where
  daaScore : ℕ
  blueScore : ℕ
  /-- The pruning point the header commits to. -/
  pruningPoint : Hash
  /-- `none` for a block whose selected parent is the origin. -/
  selectedParent : Option Hash
  mergesetBlues : List MergesetBlue := []
  coinbaseId : Hash := 0
  coinbaseOutputs : List CoinbaseOutput := []
  accepted : List AcceptedTx := []

/-- A network: its parameters, its digests and its blocks by hash. The digests are the key of
a payout script, the finalization of a MuHash accumulator over a multiset of rows, and the
digest of an encoded ledger image. -/
structure Network extends Params where
  minerKey : ScriptPublicKey → Hash
  finalize : Multiset (List UInt8) → Hash
  hashOfBytes : List UInt8 → Hash
  block : Hash → Block

/-- A network given by finitely many blocks, with stand-in digests: the identity of a payout
script is its version, a digest is a size. -/
def Network.ofBlocks (p : Params) (blocks : List (Hash × Block)) : Network :=
  { p with
    minerKey := fun spk => Fin.ofNat (2 ^ 256) spk.version
    finalize := fun rows => Fin.ofNat (2 ^ 256) rows.card
    hashOfBytes := fun bytes => Fin.ofNat (2 ^ 256) bytes.length
    block := fun h => (blocks.lookup h).getD
      { daaScore := 0, blueScore := 0, pruningPoint := 0, selectedParent := none } }

namespace Network

variable (N : Network)

/-- The score of a block. -/
def daaOf (h : Hash) : ℕ :=
  (N.block h).daaScore

/-! ### The reads of one chain block -/

/-- The paid blues of a chain block: its mergeset blues inside the DAA window. -/
def paidBlues (h : Hash) : List MergesetBlue :=
  (N.block h).mergesetBlues.filter fun b => !b.nonDaa

/-- `(identity, proven tier, delegated escrow key)` of each paid blue that announces one. -/
def serviceProducersOfChainBlock (h : Hash) : List (Hash × ℕ × Hash) :=
  (N.paidBlues h).filterMap fun b =>
    b.escrowPubkey.map fun key => (N.minerKey b.scriptPublicKey, b.pomTier, key)

/-- `(identity, payout script)` of the same blues. -/
def serviceProducerSpksOfChainBlock (h : Hash) : List (Hash × ScriptPublicKey) :=
  (N.paidBlues h).filterMap fun b =>
    b.escrowPubkey.map fun _ => (N.minerKey b.scriptPublicKey, b.scriptPublicKey)

/-- Requests `(hash, tier, max tokens)`, their rewards, and responses of a chain block. Past
the routing gate a request is identified by its transaction id, before it by its payload
digest; requests outside the lineup are skipped. -/
def serviceEventsOfChainBlock (h : Hash) (txidIdentity : Bool) :
    List (Hash × ℕ × ℕ) × List (Hash × ℕ) × List (Hash × Option Hash) :=
  let requestHash := fun id payloadDigest : Hash => if txidIdentity then id else payloadDigest
  let txs := (N.block h).accepted
  (txs.filterMap fun
      | .request id digest (some tier) maxTokens _ =>
        some (requestHash id digest, tier, maxTokens)
      | _ => none,
    txs.filterMap fun
      | .request id digest (some _) _ reward => some (requestHash id digest, reward)
      | _ => none,
    txs.filterMap fun
      | .response requestHash responder => some (requestHash, responder)
      | _ => none)

/-- The first output at or past `cursor` with a positive value that locks `key`. -/
def findEscrow (outputs : List CoinbaseOutput) (cursor : ℕ) (key : Hash) : Option ℕ :=
  (List.range' cursor (outputs.length - cursor)).find? fun i =>
    (outputs[i]?).any fun o => decide (0 < o.value ∧ o.csvEscrowPubkey = some key)

/-- Matches one paid blue with the output that locks its escrow key, past the cursor. -/
def matchEscrow (h : Hash) (s : ℕ × List (Hash × EscrowClaim)) (b : MergesetBlue) :
    ℕ × List (Hash × EscrowClaim) :=
  if b.subsidy = 0 then s
  else
    match b.escrowPubkey with
    | none => s
    | some key =>
      match findEscrow (N.block h).coinbaseOutputs s.1 key with
      | none => s
      | some idx =>
        let value := (((N.block h).coinbaseOutputs[idx]?).map CoinbaseOutput.value).getD 0
        (idx + 1, s.2 ++ [(N.minerKey b.scriptPublicKey,
          { outpoint := ⟨(N.block h).coinbaseId, idx⟩, value, daa := N.daaOf h })])

/-- Escrow claims a chain block's coinbase creates, by producing identity. -/
def serviceEscrowsOfChainBlock (h : Hash) : List (Hash × EscrowClaim) :=
  ((N.paidBlues h).foldl (N.matchEscrow h) (0, [])).2

/-- Whether `h` opens a new finality epoch on its selected chain. -/
def isPruningSampleBlock (h : Hash) : Bool :=
  match (N.block h).selectedParent with
  | none => false
  | some sp =>
    decide ((N.block sp).blueScore / N.finalityDepth < (N.block h).blueScore / N.finalityDepth)

end Network

/-! ### The selected chain -/

/-- The selected-chain store: chain blocks by index, of which those below `retained` are
pruned. -/
structure SelectedChain where
  hashes : List Hash
  retained : ℕ := 0
  deriving DecidableEq

/-- Blocks a virtual change removes from the selected chain and adds to it. -/
structure ChainPath where
  removed : List Hash := []
  added : List Hash := []
  deriving DecidableEq

namespace SelectedChain

variable (sc : SelectedChain)

/-- The chain block at an index. -/
def getByIndex? (i : ℕ) : Option Hash :=
  if sc.retained ≤ i then sc.hashes[i]? else none

/-- The index of a chain block. -/
def getByHash? (h : Hash) : Option ℕ :=
  (sc.hashes.idxOf? h).filter fun i => decide (sc.retained ≤ i)

/-- The index of the highest chain block. -/
def tipIndex : ℕ :=
  sc.hashes.length - 1

/-- The highest chain block. -/
def getTip? : Option (ℕ × Hash) :=
  (sc.getByIndex? sc.tipIndex).map fun h => (sc.tipIndex, h)

/-- Applies a virtual change. -/
def applyChanges (path : ChainPath) : SelectedChain :=
  { sc with hashes := sc.hashes.take (sc.hashes.length - path.removed.length) ++ path.added }

/-- The tip of a chain that is retained up to it. -/
theorem getTip?_eq_some {n : ℕ} (hlen : sc.hashes.length = n + 1) (hret : sc.retained ≤ n) :
    ∃ tip, sc.hashes.getLast? = some tip ∧ sc.getTip? = some (n, tip) := by
  obtain ⟨tip, htip⟩ : ∃ tip, sc.hashes[n]? = some tip := ⟨_, List.getElem?_eq_getElem (by omega)⟩
  refine ⟨tip, ?_, ?_⟩
  · rw [List.getLast?_eq_getElem?, hlen]
    exact htip
  · rw [getTip?, tipIndex, hlen, Nat.add_sub_cancel, getByIndex?, if_pos hret, htip]
    rfl

end SelectedChain

/-! ### Searching the chain -/

/-- The binary search of the source: narrows `[lo, hi]` onto the highest index whose score is
at or below the bound. The interval shrinks at every round, so `hi - lo` rounds suffice. -/
def searchAtOrBelow (daaAt : ℕ → ℕ) (bound : ℕ) : ℕ → ℕ → ℕ → ℕ
  | 0, lo, _ => lo
  | fuel + 1, lo, hi =>
    if lo < hi then
      let mid := lo + (hi - lo + 1) / 2
      if daaAt mid ≤ bound then searchAtOrBelow daaAt bound fuel mid hi
      else searchAtOrBelow daaAt bound fuel lo (mid - 1)
    else lo

/-- Highest index in `[lo, hi]` at or below the bound, or `lo` if there is none. -/
def indexAtOrBelow (daaAt : ℕ → ℕ) (bound lo hi : ℕ) : ℕ :=
  if hi ≤ lo ∨ bound < daaAt lo then lo else searchAtOrBelow daaAt bound (hi - lo) lo hi

/-- The search keeps its invariant: `lo` is at or below the bound, everything past `hi` above
it. -/
theorem searchAtOrBelow_spec {daaAt : ℕ → ℕ} {bound top : ℕ}
    (hmono : ∀ i j, i ≤ j → j ≤ top → daaAt i ≤ daaAt j) :
    ∀ fuel lo hi : ℕ, hi - lo ≤ fuel → lo ≤ hi → hi ≤ top → daaAt lo ≤ bound →
      (∀ i, hi < i → i ≤ top → bound < daaAt i) →
      let r := searchAtOrBelow daaAt bound fuel lo hi
      lo ≤ r ∧ r ≤ hi ∧ daaAt r ≤ bound ∧ ∀ i, r < i → i ≤ top → bound < daaAt i
  | 0, lo, hi, hfuel, hle, _, hlo, hhi => by
    obtain rfl : lo = hi := by omega
    exact ⟨le_refl _, le_refl _, hlo, hhi⟩
  | fuel + 1, lo, hi, hfuel, hle, htop, hlo, hhi => by
    rw [searchAtOrBelow]
    by_cases hlt : lo < hi
    · rw [if_pos hlt]
      by_cases hmid : daaAt (lo + (hi - lo + 1) / 2) ≤ bound
      · simp only [if_pos hmid]
        obtain ⟨h₁, h₂, h₃⟩ := searchAtOrBelow_spec hmono fuel (lo + (hi - lo + 1) / 2) hi
          (by omega) (by omega) htop hmid hhi
        exact ⟨by omega, h₂, h₃⟩
      · simp only [if_neg hmid]
        obtain ⟨h₁, h₂, h₃⟩ := searchAtOrBelow_spec hmono fuel lo
          (lo + (hi - lo + 1) / 2 - 1) (by omega) (by omega) (by omega) hlo
          (fun i hi₁ hi₂ => lt_of_lt_of_le (not_le.mp hmid) (hmono _ _ (by omega) hi₂))
        exact ⟨h₁, by omega, h₃⟩
    · rw [if_neg hlt]
      obtain rfl : lo = hi := by omega
      exact ⟨le_refl _, le_refl _, hlo, hhi⟩

/-- The index search from a floor: nothing between the result and `hi` is at or below the
bound, and the result is, unless it is the floor. -/
theorem indexAtOrBelow_spec {daaAt : ℕ → ℕ} {bound lo hi : ℕ}
    (hmono : ∀ i j, i ≤ j → j ≤ hi → daaAt i ≤ daaAt j) (hle : lo ≤ hi) :
    let r := indexAtOrBelow daaAt bound lo hi
    lo ≤ r ∧ r ≤ hi ∧ (r = lo ∨ daaAt r ≤ bound) ∧ ∀ i, r < i → i ≤ hi → bound < daaAt i := by
  unfold indexAtOrBelow
  split
  · next h =>
    refine ⟨le_refl _, hle, Or.inl rfl, fun i h₁ h₂ => ?_⟩
    rcases h with h | h
    · omega
    · exact lt_of_lt_of_le h (hmono _ _ h₁.le h₂)
  · next h =>
    push Not at h
    obtain ⟨h₁, h₂, h₃, h₄⟩ := searchAtOrBelow_spec hmono (hi - lo) lo hi (le_refl _) hle
      (le_refl _) h.2 fun i h₁ h₂ => by omega
    exact ⟨h₁, h₂, Or.inr h₃, h₄⟩

/-! ### Cohorts -/

namespace Network

variable (N : Network)

/-- The score of the chain block at an index; `0` where the source panics. -/
def daaAt (sc : SelectedChain) (i : ℕ) : ℕ :=
  ((sc.getByIndex? i).map N.daaOf).getD 0

/-- The window floor in retained history: the header's own pruning point while it is on the
retained chain, else the local one if the window does not reach below it. The source panics if the
local one is not on the chain either; that is `none` here, as is a window that reaches below it. -/
def windowFloorInRetention (sc : SelectedChain) (headerPp ownPp : Hash) (daaBound : ℕ) :
    Option ℕ :=
  match sc.getByHash? headerPp with
  | some idx => some idx
  | none => if N.daaOf ownPp ≤ daaBound then sc.getByHash? ownPp else none

/-- Highest chain index at or below a score, searched no deeper than the reward window. -/
def chainIndexAtOrBelowDaa (sc : SelectedChain) (bound hi floor : ℕ) : ℕ :=
  indexAtOrBelow (N.daaAt sc) bound (max (hi - N.ratioRewardWindowDaa) floor) hi

/-- Highest chain index at or below a score, searched down to the floor. -/
def serviceChainIndexAtOrBelowDaa (sc : SelectedChain) (bound hi floor : ℕ) : ℕ :=
  indexAtOrBelow (N.daaAt sc) bound floor hi

/-- The producers of the chain blocks with index in `(bottom, top]`, chain order. -/
def producersBetween (sc : SelectedChain) (bottom top : ℕ) : List (Hash × ℕ × Hash) :=
  (List.range' (bottom + 1) (top - bottom)).flatMap fun i =>
    ((sc.getByIndex? i).map N.serviceProducersOfChainBlock).getD []

/-- Eligible responsible miners for a tier, seen from committed chain block `seed`: the
producers of the window ending there. Where the window crosses below retained history the
part below the pruning point is read from the imported producers once the ledger gate is
live, and the cohort is empty before. -/
def serviceEligibleMinersIn (sc : SelectedChain) (imported : List (ℕ × Hash × ℕ × Hash))
    (seed : Hash) (targetTier windowDaa : ℕ) (ownPp : Hash) : List (Hash × Hash) :=
  match sc.getByHash? seed with
  | none => []
  | some seedIdx =>
    let seedDaa := N.daaOf seed
    let daaBound := seedDaa - windowDaa
    match N.windowFloorInRetention sc (N.block seed).pruningPoint ownPp daaBound with
    | some pruningIdx =>
      let bottom := max (N.chainIndexAtOrBelowDaa sc daaBound seedIdx pruningIdx) pruningIdx
      eligiblePairs (N.producersBetween sc bottom seedIdx) targetTier
    | none =>
      if N.serviceLedgerActivation ≤ seedDaa then
        match sc.getByHash? ownPp with
        | none => []
        | some pruningIdx =>
          let bottom :=
            max (N.chainIndexAtOrBelowDaa sc daaBound seedIdx pruningIdx) pruningIdx
          let below := imported.filter fun p =>
            decide (daaBound < p.1 ∧ p.1 ≤ N.daaOf ownPp)
          eligiblePairs (below.map Prod.snd ++ N.producersBetween sc bottom seedIdx)
            targetTier
      else []

/-- The producers of one block with its score, last first; `none` outside the window. -/
def recentProducersAt (sc : SelectedChain) (daa i : ℕ) : Option (List (ℕ × Hash × ℕ × Hash)) :=
  ((sc.getByIndex? i).filter fun h =>
      decide (daa - serviceEligibilityWindowDaa < N.daaOf h)).map fun h =>
    ((N.serviceProducersOfChainBlock h).map fun p => (N.daaOf h, p)).reverse

/-- Producers of the chain blocks with score in `(daa - window, daa]` ending at an index. The
source walks down from there and reverses all it collected. -/
def recentProducersBelow (sc : SelectedChain) (daa : ℕ) : ℕ → List (ℕ × Hash × ℕ × Hash)
  | 0 => (N.recentProducersAt sc daa 0).getD []
  | i + 1 =>
    match N.recentProducersAt sc daa (i + 1) with
    | none => []
    | some here => recentProducersBelow sc daa i ++ here

end Network

end KeryxNode
