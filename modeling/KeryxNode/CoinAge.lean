import Mathlib.Data.List.Sort
import KeryxNode.Collateral

/-!
# Coins and their Age

A coin carries the score it was created at and an *age anchor* it is aged from. The anchor of
an output is assigned when its transaction is accepted, from the spent inputs of the same
script (`assignOutputEffectiveDaa`, the FIFO carry-over of `consensus/core/src/coin_age.rs`).
The reward reads the age of an address through three aggregates split at a maturity `w`
(`effBalanceFromBuckets`).

Amounts and scores are natural numbers; the sums of the source panic on overflow, and the one
addition that saturates is written with its bound.
-/

namespace KeryxNode

/-- The largest `u64`. -/
def u64Max : ℕ := 2 ^ 64 - 1

/-- An unspent output. -/
structure UtxoEntry where
  amount : ℕ
  scriptPublicKey : ScriptPublicKey
  /-- The score of the block that accepted the transaction. -/
  blockDaaScore : ℕ
  isCoinbase : Bool
  /-- The score the coin is aged from. -/
  effectiveDaa : ℕ
  deriving DecidableEq, Repr

namespace UtxoEntry

/-- A coin aged from its creation. -/
def new (amount : ℕ) (spk : ScriptPublicKey) (blockDaaScore : ℕ) (isCoinbase : Bool) :
    UtxoEntry :=
  ⟨amount, spk, blockDaaScore, isCoinbase, blockDaaScore⟩

/-- A coin with an inherited anchor. -/
def newAged (amount : ℕ) (spk : ScriptPublicKey) (blockDaaScore : ℕ) (isCoinbase : Bool)
    (effectiveDaa : ℕ) : UtxoEntry :=
  ⟨amount, spk, blockDaaScore, isCoinbase, effectiveDaa⟩

end UtxoEntry

/-! ### The carry-over rule -/

/-- One input of a group, oldest first: what is left to spend consumes it, the rest of it
survives with its anchor. The state is the value left to spend and the mass surviving. -/
def consumeOldest (s : ℕ × ℕ) (input : ℕ × ℕ) : ℕ × ℕ :=
  let consumed := min s.1 input.1
  (s.1 - consumed, s.2 + (input.1 - consumed) * input.2)

/-- Anchor of the outputs of one script: the spent value consumes the oldest inputs, what
survives carries its weighted average, net-received value enters at the current score. -/
def fifoSurvivorAnchor (group : List (ℕ × ℕ)) (outV currentDaa : ℕ) : ℕ :=
  let inV := (group.map Prod.fst).sum
  if inV = 0 then currentDaa
  else
    let sorted := group.insertionSort fun a b => a.2 ≤ b.2
    let survivorMass := (sorted.foldl consumeOldest (inV - outV, 0)).2
    let preserved := min inV outV
    let newV := outV - preserved
    (survivorMass + newV * currentDaa) / outV

/-- The anchor of each output, in output order. Inputs are `(script, amount, anchor)` in input
order; a script absent from the inputs starts at the current score. -/
def assignOutputEffectiveDaa (inputs : List (ScriptPublicKey × ℕ × ℕ))
    (outputs : List (ScriptPublicKey × ℕ)) (currentDaa : ℕ) : List ℕ :=
  outputs.map fun o =>
    let group := (inputs.filter fun i => decide (i.1 = o.1)).map Prod.snd
    let totalOut := ((outputs.filter fun p => decide (p.1 = o.1)).map Prod.snd).sum
    if group = [] then currentDaa else fifoSurvivorAnchor group totalOut currentDaa

/-! ### The effective balance -/

/-- The effective balance of an address: mature coins at face value, immature ones by the
linear ramp, capped at their face value. -/
def effBalanceFromBuckets (bMat bImm aImm currentDaa w : ℕ) : ℕ :=
  let rampMass := currentDaa * bImm - aImm
  let immature := min (rampMass / max w 1) bImm
  min (bMat + immature) u64Max

end KeryxNode
