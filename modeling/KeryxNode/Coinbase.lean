import KeryxNode.BodyRules
import KeryxNode.CheckedNat
import KeryxNode.Ghostdag
import KeryxNode.Transactions

/-!
# The Coinbase Transaction

The coinbase a block is expected to have (`consensus/src/processes/coinbase.rs`): what the blocks
of its mergeset earned, split between their producers, the escrows, the treasury and the burn
address, and the mints of finalized inference rewards. Sums, products and differences are checked
as the source checks them: `none` is a panic, be it an overflow or a merged block without reward
data.
-/

namespace KeryxNode

namespace Tx

open ByteCodec Checked

/-! ### Splits and limits -/

/-- The treasury's part of a reward in basis points. -/
def rdAllocationBps : ℕ := 500

def rdAllocationBpsDivisor : ℕ := 10000

/-- The escrowed part of a blue's reward in basis points. -/
def escrowRateBps : ℕ := 2000

def escrowRateBpsDivisor : ℕ := 10000

def tierRewardBpsDivisor : ℕ := 10000

def ratioRewardBpsDivisor : ℕ := 10000

/-- The number of outputs a coinbase may have, by era. -/
def coinbaseOutputsLimit (ghostdagK : ℕ) (h3 h8 : Bool) : ℕ :=
  let base := if h3 then 3 * (ghostdagK + 1) + 4 else ghostdagK + 2
  if h8 then base + maxRewardMintsPerBlock else base

/-- Seconds of a month. -/
def secondsPerMonth : ℕ := 2629800

/-! ### Inputs -/

/-- The payout script and the free data of a miner. -/
structure MinerData where
  scriptPublicKey : ScriptPublicKey
  extraData : List UInt8 := []
  deriving DecidableEq

/-- What a merged block earned, and where its producer wants it. -/
structure BlockRewardData where
  subsidy : ℕ
  totalFees : ℕ
  scriptPublicKey : ScriptPublicKey
  escrowScriptPublicKey : Option ScriptPublicKey := none
  deriving DecidableEq

/-- No reward. -/
instance : Inhabited BlockRewardData :=
  ⟨⟨0, 0, ⟨0, []⟩, none⟩⟩

/-- What the coinbase of a block is made from. -/
structure CoinbaseCall where
  daaScore : ℕ
  minerData : MinerData
  ghostdagData : Ghostdag.GhostdagData
  mergesetRewards : OrdMap Hash BlockRewardData
  mergesetNonDaa : List Hash
  /-- Multipliers of the miner cut by proven tier; a missing entry is the full cut. -/
  tierBpsByBlock : OrdMap Hash ℕ
  /-- Multipliers of the miner cut by holder ratio; a missing entry is the full cut. -/
  ratioBpsByBlock : OrdMap Hash ℕ
  suspendedBlues : List Hash
  rewardMints : List (ScriptPublicKey × ℕ)

/-- The manager of coinbases. The emission schedule is a table, one entry for each month. -/
structure CoinbaseManager where
  coinbasePayloadScriptPublicKeyMaxLen : ℕ
  emissionStartDaaScore : ℕ
  preEmissionBaseSubsidy : ℕ
  bps : ℕ
  /-- The emission schedule is built with a division by it. -/
  bps_pos : 0 < bps
  emissionSchedule : List ℕ
  tailEmissionPerBlock : ℕ
  rdAllocationScriptPublicKey : ScriptPublicKey
  burnScriptPublicKey : ScriptPublicKey
  pomV3Activation : ℕ

/-- A coinbase and what a later change of the miner needs to know of it. -/
structure CoinbaseTransactionTemplate where
  tx : Transaction
  hasRedReward : Bool
  redRewardOutputIndex : Option ℕ

/-- The running state over the blues: outputs, treasury total, burned part of the cuts. -/
structure RewardTally where
  outputs : List TransactionOutput := []
  rdTotal : ℕ := 0
  rewardBurnTotal : ℕ := 0
  deriving DecidableEq

namespace CoinbaseManager

variable (m : CoinbaseManager)

/-! ### The builder -/

/-- The subsidy of a block. -/
def calcBlockSubsidy (daaScore : ℕ) : ℕ :=
  if daaScore < m.emissionStartDaaScore then m.preEmissionBaseSubsidy
  else
    let month := (daaScore - m.emissionStartDaaScore) / m.bps / secondsPerMonth
    m.emissionSchedule.getD month m.tailEmissionPerBlock

/-- The payload of a coinbase. -/
def serializeCoinbasePayload (blueScore subsidy : ℕ) (data : MinerData) :
    Except Body.CoinbaseError (List UInt8) :=
  let len := data.scriptPublicKey.script.length
  if len > m.coinbasePayloadScriptPublicKeyMaxLen then
    .error (.payloadScriptPublicKeyLenAboveMax len m.coinbasePayloadScriptPublicKeyMaxLen)
  else
    .ok (leBytes 8 blueScore ++ leBytes 8 subsidy ++ leBytes 2 data.scriptPublicKey.version ++
      leBytes 1 len ++ data.scriptPublicKey.script ++ data.extraData)

/-- The miner cut after both multipliers, divided in this order. A suspended producer gets
nothing. -/
def scaleMinerCut (suspended : Bool) (minerSubsidy tierBps ratioBps : ℕ) : Option ℕ :=
  if suspended then some 0
  else do
    let tiered ← u64 (minerSubsidy * tierBps)
    let both ← u64 (tiered / tierRewardBpsDivisor * ratioBps)
    some (both / ratioRewardBpsDivisor)

/-- The outputs for one blue. Fees are burned; the subsidy is split between the treasury, the
escrow and the miner, whose cut is scaled and the rest of it burned. -/
def rewardBlue (c : CoinbaseCall) (s : RewardTally) (blue : Hash) : Option RewardTally := do
  let data ← c.mergesetRewards.get? blue
  let outputs := if 0 < data.totalFees then
      s.outputs ++ [⟨data.totalFees, m.burnScriptPublicKey⟩] else s.outputs
  if 0 < data.subsidy then do
    let rdProduct ← u64 (data.subsidy * rdAllocationBps)
    let rdCut := rdProduct / rdAllocationBpsDivisor
    let escrowProduct ← u64 (data.subsidy * escrowRateBps)
    let escrowCut := escrowProduct / escrowRateBpsDivisor
    let rdTotal ← u64 (s.rdTotal + rdCut)
    let afterRd ← sub data.subsidy rdCut
    let minerSubsidy ← sub afterRd escrowCut
    let tierBps := (c.tierBpsByBlock.get? blue).getD tierRewardBpsDivisor
    let ratioBps := (c.ratioBpsByBlock.get? blue).getD ratioRewardBpsDivisor
    let minerPaid ← scaleMinerCut (decide (blue ∈ c.suspendedBlues)) minerSubsidy tierBps ratioBps
    let shortfall ← sub minerSubsidy minerPaid
    let rewardBurnTotal ← u64 (s.rewardBurnTotal + shortfall)
    let outputs := if 0 < minerPaid then outputs ++ [⟨minerPaid, data.scriptPublicKey⟩] else outputs
    let outputs := if 0 < escrowCut then
        outputs ++ [⟨escrowCut, data.escrowScriptPublicKey.getD m.burnScriptPublicKey⟩] else outputs
    some { outputs, rdTotal, rewardBurnTotal }
  else some { s with outputs }

/-- What one red adds to the red subsidies and to the red fees. A subsidy inside the DAA window
is burned with the fees once the gate is live. -/
def rewardRed (c : CoinbaseCall) (s : ℕ × ℕ) (red : Hash) : Option (ℕ × ℕ) := do
  let data ← c.mergesetRewards.get? red
  if red ∈ c.mergesetNonDaa then do
    let redFees ← u64 (s.2 + data.totalFees)
    some (s.1, redFees)
  else if m.pomV3Activation ≤ c.daaScore then do
    let both ← u64 (data.subsidy + data.totalFees)
    let redFees ← u64 (s.2 + both)
    some (s.1, redFees)
  else do
    let redSubsidy ← u64 (s.1 + data.subsidy)
    let redFees ← u64 (s.2 + data.totalFees)
    some (redSubsidy, redFees)

/-- The reward of the merging miner for reds: outputs, treasury total and index of the output. -/
def rewardReds (c : CoinbaseCall) (outputs : List TransactionOutput) (rdTotal redSubsidy : ℕ) :
    Option (List TransactionOutput × ℕ × Option ℕ) :=
  if 0 < redSubsidy then do
    let rdProduct ← u64 (redSubsidy * rdAllocationBps)
    let rdCut := rdProduct / rdAllocationBpsDivisor
    let rdTotal ← u64 (rdTotal + rdCut)
    let paid ← sub redSubsidy rdCut
    some (outputs ++ [⟨paid, c.minerData.scriptPublicKey⟩], rdTotal, some outputs.length)
  else some (outputs, rdTotal, none)

/-- The coinbase a block is expected to have. -/
def expectedCoinbaseTransaction (c : CoinbaseCall) :
    Option (Except Body.CoinbaseError CoinbaseTransactionTemplate) := do
  let blues := c.ghostdagData.mergesetBlues.filter fun h => decide (h ∉ c.mergesetNonDaa)
  let tally ← blues.foldlM (m.rewardBlue c) {}
  let (redSubsidy, redFees) ← c.ghostdagData.mergesetReds.foldlM (m.rewardRed c) (0, 0)
  let outputs := if 0 < redFees then
      tally.outputs ++ [⟨redFees, m.burnScriptPublicKey⟩] else tally.outputs
  let (outputs, rdTotal, redRewardOutputIndex) ← rewardReds c outputs tally.rdTotal redSubsidy
  let outputs := if 0 < rdTotal then
      outputs ++ [⟨rdTotal, m.rdAllocationScriptPublicKey⟩] else outputs
  let outputs := if 0 < tally.rewardBurnTotal then
      outputs ++ [⟨tally.rewardBurnTotal, m.burnScriptPublicKey⟩] else outputs
  let outputs := outputs ++ c.rewardMints.map fun mint => ⟨mint.2, mint.1⟩
  let subsidy := m.calcBlockSubsidy c.daaScore
  some ((m.serializeCoinbasePayload c.ghostdagData.blueScore subsidy c.minerData).map fun payload =>
    { tx := { version := txVersion, outputs, subnetworkId := .coinbase, payload }
      hasRedReward := decide (0 < redSubsidy ∨ 0 < redFees)
      redRewardOutputIndex })

end CoinbaseManager

end Tx

end KeryxNode
