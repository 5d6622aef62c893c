import Mathlib.Algebra.GroupWithZero.Nat
import Mathlib.Data.List.Dedup
import Mathlib.Data.List.Sort
import Mathlib.Data.Prod.Lex
import Mathlib.Order.Fin.Basic
import KeryxNode.OrdMap

/-!
# Service-Bond Collateral: Values and Tables

The data model of the service bond and its pure tables, as `consensus/core/src/collateral.rs`
has them. A miner locks part of each block subsidy as escrow claims; an inference request
opens an audit on the miners of its tier; a miner silent on an audit is struck, and the
strike burns claims or suspends its production. This module holds the values those steps
pass around and the tables they read: the retention horizons, the audit window
(`serviceWindowDaaAt`), the penalty schedule (`strikePenaltyAt`) and the cohort of a tier
(`eligiblePairs`).

Scores, amounts and counts are natural numbers. A 32-byte hash is the big-endian number its
bytes spell, so the order of hashes is the byte order the source's maps iterate in.
-/

namespace KeryxNode

/-! ### Keys -/

/-- A 32-byte hash: the identity of a miner, of a delegated escrow key, of a block or of a
request. -/
abbrev Hash := Fin (2 ^ 256)

/-- Numerals denote hashes. -/
instance hashCount_neZero : NeZero (2 ^ 256) :=
  inferInstance

/-- Hashes are compared as numbers: membership in a list of hashes is decidable. -/
instance hash_lawfulBEq : LawfulBEq Hash :=
  inferInstance

/-- The all-zero hash, `Hash::default()`. -/
def zeroHash : Hash := 0

/-- An output of a transaction. -/
structure TransactionOutpoint where
  transactionId : Hash
  index : ℕ
  deriving DecidableEq, Repr

/-- The store key of an outpoint: the transaction id, then the output index. -/
def TransactionOutpoint.key (o : TransactionOutpoint) : Hash ×ₗ ℕ :=
  toLex (o.transactionId, o.index)

/-- Distinct outpoints have distinct keys. -/
theorem TransactionOutpoint.key_injective : Function.Injective key := by
  rintro ⟨t, i⟩ ⟨t', i'⟩ h
  simpa [key] using h

instance : LinearOrder TransactionOutpoint :=
  LinearOrder.lift' TransactionOutpoint.key TransactionOutpoint.key_injective

/-- A payout script with its version. -/
structure ScriptPublicKey where
  version : ℕ
  script : List UInt8
  deriving DecidableEq, Repr

/-! ### Horizons and limits -/

/-- DAA window during which a claim stays burnable. -/
def serviceBurnableWindowDaa : ℕ := 360000

/-- Escrow lock from the service-bond gate on: burnable window and finality depth. -/
def serviceBondCsvWindowBlocks : ℕ := 792000

/-- Claims burned at the first consecutive missed assignment. -/
def strike1BurnClaims : ℕ := 5

/-- Minimum DAA between two consecutive strikes on the same miner. -/
def serviceStrikeIntervalDaa : ℕ := 36000

/-- Production suspension applied at the third consecutive strike. -/
def serviceSuspensionDaa : ℕ := 864000

/-- Service-eligibility window before the v2 gate. -/
def serviceEligibilityWindowDaa : ℕ := 6000

/-- Service-eligibility window once the v2 gate is live. -/
def serviceEligibilityWindowDaaV2 : ℕ := 3000

/-- Standing evaluation lag and probation length. -/
def serviceStandingLagDaa : ℕ := 504000

/-- Fixed part of the audit window. -/
def serviceWindowBaseDaa : ℕ := 300

/-- Fixed part of the audit window once the v2 gate is live. -/
def serviceWindowBaseDaaV2 : ℕ := 3000

/-- Hard cap on the tokens a request can ask for. -/
def aiRequestMaxTokensCap : ℕ := 4096

/-- Horizon beyond which a pending request is forgotten. -/
def serviceLedgerHorizonDaa : ℕ := 72000

/-- How long an admitted request hash stays remembered. -/
def serviceAuditedMemoryDaa : ℕ := 864000

/-- Hard cap on the reward mints of one coinbase. -/
def maxRewardMintsPerBlock : ℕ := 64

/-- How long a response is held while its request is not accepted yet. -/
def serviceEarlyResponseHorizonDaa : ℕ := 36000

/-- Ceiling on distinct request hashes held early. -/
def maxEarlyResponseHashes : ℕ := 4096

/-! ### Windows and penalties -/

/-- DAA window of an audit: a base selected by the v2 gate plus an allowance per requested
token, floored at the generation speed of the tier's model class. -/
def serviceWindowDaaAt (tier maxTokens : ℕ) (v2 : Bool) : ℕ :=
  let perTokenDaa := if tier ≤ 2 then 2 else if tier = 3 then 3 else 4
  let base := if v2 then serviceWindowBaseDaaV2 else serviceWindowBaseDaa
  base + min maxTokens aiRequestMaxTokensCap * perTokenDaa

/-- Penalty of a missed service assignment. -/
inductive ServicePenalty where
  | none
  /-- Burns the `n` newest claims. -/
  | burnClaims (n : ℕ)
  /-- Burns the whole still-locked escrow. -/
  | slashAllPending
  /-- Burns the whole still-locked escrow and suspends the miner's production. -/
  | suspend
  deriving DecidableEq, Repr

/-- Penalty of the `consecutiveMisses`-th consecutive miss. Before the v2 gate an identity
without standing skips the gentle first step. -/
def strikePenaltyAt (consecutiveMisses : ℕ) (established v2 : Bool) : ServicePenalty :=
  match consecutiveMisses, established || v2 with
  | 0, _ => .none
  | 1, true => .burnClaims strike1BurnClaims
  | 1, false => .slashAllPending
  | 2, _ => .slashAllPending
  | _, _ => .suspend

/-- The lexicographic order of pairs of hashes. -/
def pairLe (a b : Hash × Hash) : Bool :=
  decide (a.1 < b.1) || (decide (a.1 = b.1) && decide (a.2 ≤ b.2))

/-- Sorts a list of pairs and drops repetitions. -/
def sortDedupPairs (l : List (Hash × Hash)) : List (Hash × Hash) :=
  (l.insertionSort fun a b => pairLe a b = true).dedup

/-- Eligible responsible-miner set for a tier: the distinct `(identity, escrow key)` pairs
of the recent `(identity, tier, escrow key)` producers, sorted. -/
def eligiblePairs (recent : List (Hash × ℕ × Hash)) (targetTier : ℕ) : List (Hash × Hash) :=
  sortDedupPairs ((recent.filter fun p => decide (p.2.1 = targetTier)).map fun p => (p.1, p.2.2))

/-! ### Claims, requests, strikes and events -/

/-- One escrow claim of a miner: a locked coinbase output. -/
structure EscrowClaim where
  outpoint : TransactionOutpoint
  value : ℕ
  daa : ℕ
  deriving DecidableEq, Repr

/-- A missed service assignment, with the claims its penalty takes, newest first. -/
structure ServiceMiss where
  requestHash : Hash
  miner : Hash
  consecutiveMisses : ℕ
  penalty : ServicePenalty
  burned : List EscrowClaim
  deriving DecidableEq, Repr

/-- One cohort audit: the sorted identities that must respond, the `(escrow key, identity)`
delegations, the identities that did, and the closing score. -/
structure Audit where
  cohort : List Hash
  delegations : List (Hash × Hash)
  responded : List Hash
  windowEndDaa : ℕ
  deriving DecidableEq, Repr

/-- An accepted request that is not closed yet. -/
structure PendingRequest where
  tier : ℕ
  maxTokens : ℕ
  acceptedDaa : ℕ
  reward : ℕ
  winner : Option Hash
  audit : Option Audit
  earlyResponders : List Hash
  deriving DecidableEq, Repr

/-- One miner's strike state, also the persisted strike-log record. -/
structure StrikeEntry where
  count : ℕ
  lastDaa : ℕ
  deriving DecidableEq, Repr

/-- Persisted record of an inference-reward win. -/
structure RewardEntry where
  winner : Hash
  amount : ℕ
  daa : ℕ
  spk : Option ScriptPublicKey
  deriving DecidableEq, Repr

/-- An inference reward won by the first identity credited with a response. -/
structure ServiceReward where
  requestHash : Hash
  winner : Hash
  amount : ℕ
  spk : Option ScriptPublicKey
  deriving DecidableEq, Repr

/-- The outcomes of folding one chain block. -/
structure FoldOutcome where
  misses : List ServiceMiss := []
  rewards : List ServiceReward := []
  /-- Streak resets as `(identity, preserved last-strike daa)`. -/
  resets : List (Hash × ℕ) := []
  sightings : List Hash := []
  /-- Claims dropped by the burnable-window purge, in pop order. -/
  expired : List (Hash × EscrowClaim) := []
  deriving DecidableEq, Repr

/-- The chain inputs of one fold: the accepted requests `(hash, tier, max tokens)`, their
vaulted rewards, the responses `(hash, verified responder)`, the escrow claims the block
creates and its producers with their payout scripts. -/
structure FoldInput where
  daa : ℕ
  requests : List (Hash × ℕ × ℕ) := []
  requestRewards : List (Hash × ℕ) := []
  responses : List (Hash × Option Hash) := []
  escrows : List (Hash × EscrowClaim) := []
  producers : List (Hash × ScriptPublicKey) := []
  deriving DecidableEq, Repr

end KeryxNode
