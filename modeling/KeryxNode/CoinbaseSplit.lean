import KeryxNode.Coinbase

/-!
# The Value of a Coinbase

Where no sum or product overflows, the coinbase is a split in natural numbers: every blue inside
the DAA window is divided between its producer, its escrow, the treasury and the burn address, the
reds between the merging miner, the treasury and the burn address. This module states that split
(`coinbaseOutputs`), shows that the builder computes it, and derives what the validator relies on.

## Main results

* `coinbase_conservation`: they are worth what was earned, none is zero, they stay within the
  limit of the validator, and no producer gets more than the cut of their block.
-/

namespace KeryxNode

open List

namespace Tx

open Checked

/-! ### The split in natural numbers -/

/-- An output, unless its value is zero. -/
def payment (value : ℕ) (spk : ScriptPublicKey) : List TransactionOutput :=
  if 0 < value then [⟨value, spk⟩] else []

theorem append_payment (outputs : List TransactionOutput) (value : ℕ) (spk : ScriptPublicKey) :
    (if 0 < value then outputs ++ [⟨value, spk⟩] else outputs) = outputs ++ payment value spk := by
  rw [payment]
  split
  · rfl
  · rw [append_nil]

theorem payment_zero (spk : ScriptPublicKey) : payment 0 spk = [] := rfl

/-- The treasury's part of a subsidy. -/
def rdCut (subsidy : ℕ) : ℕ :=
  subsidy * rdAllocationBps / rdAllocationBpsDivisor

/-- The escrowed part of a subsidy. -/
def escrowCut (subsidy : ℕ) : ℕ :=
  subsidy * escrowRateBps / escrowRateBpsDivisor

/-- The miner's part of a subsidy. -/
def minerCut (subsidy : ℕ) : ℕ :=
  subsidy - rdCut subsidy - escrowCut subsidy

/-- The three parts are the whole. -/
theorem cuts_add (subsidy : ℕ) :
    rdCut subsidy + escrowCut subsidy + minerCut subsidy = subsidy := by
  simp only [minerCut, rdCut, escrowCut, rdAllocationBps, rdAllocationBpsDivisor, escrowRateBps,
    escrowRateBpsDivisor]
  omega

namespace CoinbaseCall

variable (c : CoinbaseCall)

/-- The reward data of a merged block. -/
def reward (h : Hash) : BlockRewardData :=
  (c.mergesetRewards.get? h).getD default

def tierBps (blue : Hash) : ℕ :=
  (c.tierBpsByBlock.get? blue).getD tierRewardBpsDivisor

def ratioBps (blue : Hash) : ℕ :=
  (c.ratioBpsByBlock.get? blue).getD ratioRewardBpsDivisor

/-- What the producer of a blue is paid. -/
def minerPaid (blue : Hash) : ℕ :=
  if blue ∈ c.suspendedBlues then 0
  else minerCut (c.reward blue).subsidy * c.tierBps blue / tierRewardBpsDivisor * c.ratioBps blue
    / ratioRewardBpsDivisor

/-- The blues inside the DAA window. -/
def daaBlues : List Hash :=
  c.ghostdagData.mergesetBlues.filter fun h => decide (h ∉ c.mergesetNonDaa)

/-- The reds inside the DAA window. -/
def daaReds : List Hash :=
  c.ghostdagData.mergesetReds.filter fun h => decide (h ∉ c.mergesetNonDaa)

/-- What the mergeset earned: subsidies and fees of the DAA blues, fees of all reds, subsidies of
the DAA reds, and the mints. -/
def earned : ℕ :=
  (c.daaBlues.map fun b => (c.reward b).subsidy + (c.reward b).totalFees).sum +
    (c.ghostdagData.mergesetReds.map fun r => (c.reward r).totalFees).sum +
    (c.daaReds.map fun r => (c.reward r).subsidy).sum + (c.rewardMints.map Prod.snd).sum

end CoinbaseCall

open CoinbaseCall (minerPaid earned daaReds tierBps ratioBps)

namespace CoinbaseManager

variable (m : CoinbaseManager) (c : CoinbaseCall) {blues : List Hash} {t : ℕ × ℕ} (value : ℕ)
  (spk : ScriptPublicKey) {n : ℕ}

/-- The outputs for a blue. -/
def blueOutputs (blue : Hash) : List TransactionOutput :=
  payment (c.reward blue).totalFees m.burnScriptPublicKey ++
    payment (c.minerPaid blue) (c.reward blue).scriptPublicKey ++
    payment (escrowCut (c.reward blue).subsidy)
      ((c.reward blue).escrowScriptPublicKey.getD m.burnScriptPublicKey)

/-- The running state after a blue. -/
def afterBlue (s : RewardTally) (blue : Hash) : RewardTally where
  outputs := s.outputs ++ m.blueOutputs c blue
  rdTotal := s.rdTotal + rdCut (c.reward blue).subsidy
  rewardBurnTotal := s.rewardBurnTotal + (minerCut (c.reward blue).subsidy - c.minerPaid blue)

variable {m c} {s s' : RewardTally} {blue : Hash}

theorem minerPaid_of_subsidy_zero (h : (c.reward blue).subsidy = 0) : c.minerPaid blue = 0 := by
  rw [minerPaid, h, show minerCut 0 = 0 from rfl]
  simp

/-- A blue without a subsidy adds its burned fees only. -/
theorem afterBlue_of_subsidy_zero (h : (c.reward blue).subsidy = 0) :
    m.afterBlue c s blue = { s with
      outputs := s.outputs ++ payment (c.reward blue).totalFees m.burnScriptPublicKey } := by
  rw [afterBlue, blueOutputs, minerPaid_of_subsidy_zero h, h, show escrowCut 0 = 0 from rfl,
    payment_zero, payment_zero, append_nil, append_nil]
  rfl

/-- **One blue**: its reward data is there, and if it has a subsidy, all products and sums fit and
it is paid at most its cut. -/
theorem rewardBlue_eq_some_iff :
    m.rewardBlue c s blue = some s' ↔ (∃ data, c.mergesetRewards.get? blue = some data) ∧
      (0 < (c.reward blue).subsidy → (c.reward blue).subsidy * rdAllocationBps < 2 ^ 64 ∧
        (c.reward blue).subsidy * escrowRateBps < 2 ^ 64 ∧
        s.rdTotal + rdCut (c.reward blue).subsidy < 2 ^ 64 ∧
        (blue ∉ c.suspendedBlues → minerCut (c.reward blue).subsidy * c.tierBps blue < 2 ^ 64 ∧
          minerCut (c.reward blue).subsidy * c.tierBps blue / tierRewardBpsDivisor *
            c.ratioBps blue < 2 ^ 64) ∧
        c.minerPaid blue ≤ minerCut (c.reward blue).subsidy ∧
        s.rewardBurnTotal + (minerCut (c.reward blue).subsidy - c.minerPaid blue) < 2 ^ 64) ∧
      m.afterBlue c s blue = s' := by
  rw [rewardBlue]
  cases hdata : c.mergesetRewards.get? blue with
  | none => simp
  | some data =>
    obtain rfl : c.reward blue = data := by
      rw [CoinbaseCall.reward, hdata]
      rfl
    simp only [some_bind, append_payment, Option.some.injEq, exists_eq', true_and]
    split
    · next hpos =>
      have hparts := cuts_add (c.reward blue).subsidy
      have hrd : rdCut (c.reward blue).subsidy ≤ (c.reward blue).subsidy := by omega
      have hescrow : escrowCut (c.reward blue).subsidy
          ≤ (c.reward blue).subsidy - rdCut (c.reward blue).subsidy := by omega
      rw [rdCut] at hrd
      rw [rdCut, escrowCut] at hescrow
      by_cases hs : blue ∈ c.suspendedBlues <;>
        simp only [hpos, hs, hrd, hescrow, scaleMinerCut, minerPaid, tierBps, ratioBps, rdCut,
          escrowCut, minerCut, afterBlue, blueOutputs, decide_true, decide_false, if_true, if_false,
          Bool.false_eq_true, some_bind, bind_assoc, u64_bind_eq_some, sub_bind_eq_some,
          Option.some.injEq, append_assoc, true_and, forall_const, not_true_eq_false,
          not_false_eq_true, false_implies, and_assoc]
    · next hzero =>
      rw [afterBlue_of_subsidy_zero (Nat.eq_zero_of_not_pos hzero), Option.some.injEq]
      exact (and_iff_right fun hpos => absurd hpos hzero).symm

/-- A part in basis points is at most the whole. -/
theorem bps_le {bps : ℕ} (h : bps ≤ 10000) : n * bps / 10000 ≤ n :=
  Nat.div_le_of_le_mul (by rw [Nat.mul_comm 10000]; exact Nat.mul_le_mul_left n h)

theorem minerCut_le (subsidy : ℕ) : minerCut subsidy ≤ subsidy :=
  (Nat.sub_le _ _).trans (Nat.sub_le _ _)

/-- A multiplier up to its divisor scales down. -/
theorem minerPaid_le (htier : c.tierBps blue ≤ tierRewardBpsDivisor)
    (hratio : c.ratioBps blue ≤ ratioRewardBpsDivisor) :
    c.minerPaid blue ≤ minerCut (c.reward blue).subsidy := by
  rw [minerPaid]
  split
  · exact Nat.zero_le _
  · exact (bps_le hratio).trans (bps_le htier)

/-- The blues of a mergeset. -/
theorem rewardBlues_eq_some (h : blues.foldlM (m.rewardBlue c) s = some s') :
    (∀ blue ∈ blues, (∃ data, c.mergesetRewards.get? blue = some data) ∧
      c.minerPaid blue ≤ minerCut (c.reward blue).subsidy) ∧
      s' = blues.foldl (m.afterBlue c) s := by
  induction blues generalizing s with
  | nil => exact ⟨fun _ hb => (by cases hb), (Option.some.inj h).symm⟩
  | cons blue blues ih =>
    rw [foldlM_cons, bind_eq_some_iff] at h
    obtain ⟨mid, hmid, h⟩ := h
    obtain ⟨hrewarded, hfits, rfl⟩ := rewardBlue_eq_some_iff.mp hmid
    obtain ⟨hrest, rfl⟩ := ih h
    refine ⟨forall_mem_cons.mpr ⟨⟨hrewarded, ?_⟩, hrest⟩, rfl⟩
    rcases Nat.eq_zero_or_pos (c.reward blue).subsidy with hzero | hpos
    · rw [minerPaid_of_subsidy_zero hzero]
      exact Nat.zero_le _
    · exact (hfits hpos).2.2.2.2.1

/-- The running state after some blues. -/
theorem foldl_afterBlue (blues : List Hash) (s : RewardTally) :
    blues.foldl (m.afterBlue c) s =
      { outputs := s.outputs ++ blues.flatMap (m.blueOutputs c)
        rdTotal := s.rdTotal + (blues.map fun b => rdCut (c.reward b).subsidy).sum
        rewardBurnTotal := s.rewardBurnTotal +
          (blues.map fun b => minerCut (c.reward b).subsidy - c.minerPaid b).sum } := by
  induction blues generalizing s with
  | nil => simp
  | cons blue blues ih =>
    rw [foldl_cons, ih, afterBlue]
    simp only [flatMap_cons, append_assoc, map_cons, sum_cons, Nat.add_assoc]

/-! ### Reds -/

variable (m c)

/-- The part of a red's subsidy the merging miner gets. -/
def redSubsidy (red : Hash) : ℕ :=
  if red ∈ c.mergesetNonDaa ∨ m.pomV3Activation ≤ c.daaScore then 0 else (c.reward red).subsidy

/-- The part of a red's reward that is burned. -/
def redFees (red : Hash) : ℕ :=
  (c.reward red).totalFees + if red ∉ c.mergesetNonDaa ∧ m.pomV3Activation ≤ c.daaScore then
    (c.reward red).subsidy else 0

/-- The subsidies of the reds the merging miner gets. -/
def redSubsidyTotal : ℕ :=
  (c.ghostdagData.mergesetReds.map (m.redSubsidy c)).sum

/-- What is burned of the reds. -/
def redFeesTotal : ℕ :=
  (c.ghostdagData.mergesetReds.map (m.redFees c)).sum

variable {m c}

/-- A red brings its fees, and its subsidy if it is inside the DAA window. -/
theorem redSubsidy_add_redFees (red : Hash) :
    m.redSubsidy c red + m.redFees c red =
      (c.reward red).totalFees + if red ∈ c.mergesetNonDaa then 0 else (c.reward red).subsidy := by
  rw [redSubsidy, redFees]
  by_cases hnon : red ∈ c.mergesetNonDaa <;> by_cases hgate : m.pomV3Activation ≤ c.daaScore <;>
    simp [hgate, Nat.add_comm]

/-- **One red**: its reward data is there and the sums fit. -/
theorem rewardRed_eq_some_iff {t' : ℕ × ℕ} {red : Hash} (ht : t.1 < 2 ^ 64) :
    m.rewardRed c t red = some t' ↔ (∃ data, c.mergesetRewards.get? red = some data) ∧
      t.1 + m.redSubsidy c red < 2 ^ 64 ∧ t.2 + m.redFees c red < 2 ^ 64 ∧
      (t.1 + m.redSubsidy c red, t.2 + m.redFees c red) = t' := by
  rw [rewardRed, redSubsidy, redFees, CoinbaseCall.reward]
  cases c.mergesetRewards.get? red with
  | none => simp
  | some data =>
    by_cases hnon : red ∈ c.mergesetNonDaa <;> by_cases hgate : m.pomV3Activation ≤ c.daaScore <;>
      simp only [hnon, hgate, ht, some_bind, u64_bind_eq_some, Option.getD_some, Option.some.injEq,
        exists_eq', true_and, and_true, or_true, true_or, or_self, and_false,
        not_true_eq_false, not_false_eq_true, if_true, if_false, Nat.add_zero]
    -- Past the gate a red's subsidy and its fees are added first.
    rw [Nat.add_comm data.subsidy]
    exact ⟨And.right, fun h => ⟨by omega, h⟩⟩

/-- **The reds of a mergeset**: all have reward data, and the totals fit. -/
theorem rewardReds_run_eq_some_iff {reds : List Hash} {t' : ℕ × ℕ} (hsubsidy : t.1 < 2 ^ 64)
    (hfees : t.2 < 2 ^ 64) :
    reds.foldlM (m.rewardRed c) t = some t' ↔
      (∀ red ∈ reds, ∃ data, c.mergesetRewards.get? red = some data) ∧
      t.1 + (reds.map (m.redSubsidy c)).sum < 2 ^ 64 ∧
      t.2 + (reds.map (m.redFees c)).sum < 2 ^ 64 ∧
      (t.1 + (reds.map (m.redSubsidy c)).sum, t.2 + (reds.map (m.redFees c)).sum) = t' := by
  induction reds generalizing t with
  | nil =>
    simp only [map_nil, sum_nil, Nat.add_zero, hsubsidy, hfees]
    simp
  | cons red reds ih =>
    simp only [foldlM_cons, bind_eq_some_iff, rewardRed_eq_some_iff hsubsidy, forall_mem_cons,
      map_cons, sum_cons, ← Nat.add_assoc]
    constructor
    · rintro ⟨_, ⟨hred, hsubsidy, hfees, rfl⟩, h⟩
      obtain ⟨hrest, h⟩ := (ih hsubsidy hfees).mp h
      exact ⟨⟨hred, hrest⟩, h⟩
    · rintro ⟨⟨hred, hrest⟩, h⟩
      have hsubsidy : t.1 + m.redSubsidy c red < 2 ^ 64 := by omega
      have hfees : t.2 + m.redFees c red < 2 ^ 64 := by omega
      exact ⟨_, ⟨hred, hsubsidy, hfees, rfl⟩, (ih hsubsidy hfees).mpr ⟨hrest, h⟩⟩

theorem rdCut_lt (h : 0 < n) : rdCut n < n := by
  rw [rdCut, rdAllocationBps, rdAllocationBpsDivisor]
  omega

/-- The merging miner's reward for reds. -/
theorem rewardReds_eq_some_iff (outputs : List TransactionOutput) (rdTotal : ℕ)
    {r : List TransactionOutput × ℕ × Option ℕ} :
    rewardReds c outputs rdTotal n = some r ↔
      (0 < n → n * rdAllocationBps < 2 ^ 64 ∧ rdTotal + rdCut n < 2 ^ 64) ∧
      (outputs ++ payment (n - rdCut n) c.minerData.scriptPublicKey, rdTotal + rdCut n,
        if 0 < n then some outputs.length else none) = r := by
  rw [rewardReds]
  split
  · next hpos =>
    have hlt := rdCut_lt hpos
    rw [payment, if_pos (Nat.sub_pos_of_lt hlt), u64_bind_eq_some, u64_bind_eq_some,
      sub_bind_eq_some, Option.some.injEq, forall_prop_of_true hpos, and_assoc]
    exact and_congr_right fun _ => and_congr_right fun _ => and_iff_right hlt.le
  · next hzero =>
    obtain rfl : n = 0 := Nat.eq_zero_of_not_pos hzero
    rw [Option.some.injEq, and_iff_right fun h => absurd h hzero, show rdCut 0 = 0 from rfl,
      payment_zero, append_nil]
    rfl

/-! ### The outputs -/

variable (m c)

/-- The treasury's total. -/
def rdTotal : ℕ :=
  (c.daaBlues.map fun b => rdCut (c.reward b).subsidy).sum + rdCut (m.redSubsidyTotal c)

/-- The part of the miner cuts that is burned. -/
def rewardBurnTotal : ℕ :=
  (c.daaBlues.map fun b => minerCut (c.reward b).subsidy - c.minerPaid b).sum

/-- The outputs of the coinbase. -/
def coinbaseOutputs : List TransactionOutput :=
  c.daaBlues.flatMap (m.blueOutputs c) ++ payment (m.redFeesTotal c) m.burnScriptPublicKey ++
    payment (m.redSubsidyTotal c - rdCut (m.redSubsidyTotal c)) c.minerData.scriptPublicKey ++
    payment (m.rdTotal c) m.rdAllocationScriptPublicKey ++
    payment (rewardBurnTotal c) m.burnScriptPublicKey ++
    c.rewardMints.map fun mint => ⟨mint.2, mint.1⟩

variable {m c}

/-- **The outputs of a coinbase** are those of the split in natural numbers. -/
theorem expectedCoinbaseTransaction_outputs {t : CoinbaseTransactionTemplate}
    (h : m.expectedCoinbaseTransaction c = some (.ok t)) :
    t.tx.outputs = m.coinbaseOutputs c ∧
      ∀ blue ∈ c.daaBlues, c.minerPaid blue ≤ minerCut (c.reward blue).subsidy := by
  simp only [expectedCoinbaseTransaction, bind_eq_some_iff, append_payment, Prod.exists] at h
  obtain ⟨tally, htally, redSubsidy, redFees, hreds, outputs, rdTotal, index, hminer, h⟩ := h
  obtain ⟨hblues, rfl⟩ := rewardBlues_eq_some htally
  have hreds := ((rewardReds_run_eq_some_iff (by decide) (by decide)).mp hreds).2.2.2
  obtain ⟨rfl, rfl⟩ := hreds
  cases ((rewardReds_eq_some_iff _ _).mp hminer).2
  refine ⟨?_, fun blue hblue => (hblues blue hblue).2⟩
  rw [foldl_afterBlue] at h
  cases hpayload : m.serializeCoinbasePayload c.ghostdagData.blueScore
      (m.calcBlockSubsidy c.daaScore) c.minerData with
  | error e =>
    rw [hpayload] at h
    cases h
  | ok payload =>
    rw [hpayload] at h
    cases h
    simp only [Nat.zero_add]
    rfl

/-! ### Conservation -/

/-- A payment is worth its value, also if it is left out. -/
theorem totalValue_payment :
    totalValue (payment value spk) = value := by
  rw [payment]
  split
  · exact Nat.add_zero value
  · next hzero => exact (Nat.eq_zero_of_not_pos hzero).symm

theorem totalValue_append (l r : List TransactionOutput) :
    totalValue (l ++ r) = totalValue l + totalValue r := by
  rw [totalValue, map_append, sum_append]
  rfl

theorem totalValue_flatMap {α : Type} (f : α → List TransactionOutput) (l : List α) :
    totalValue (l.flatMap f) = (l.map fun a => totalValue (f a)).sum := by
  induction l with
  | nil => rfl
  | cons a l ih => rw [flatMap_cons, totalValue_append, ih, map_cons, sum_cons]

/-- The value a blue puts into outputs of its own. -/
theorem totalValue_blueOutputs (blue : Hash) :
    totalValue (m.blueOutputs c blue) =
      (c.reward blue).totalFees + c.minerPaid blue + escrowCut (c.reward blue).subsidy := by
  rw [blueOutputs, totalValue_append, totalValue_append, totalValue_payment, totalValue_payment,
    totalValue_payment]

/-- The blues: what is paid out, kept for the treasury and burned is what they earned. -/
theorem blues_conserved (h : ∀ blue ∈ blues, c.minerPaid blue ≤ minerCut (c.reward blue).subsidy) :
    totalValue (blues.flatMap (m.blueOutputs c)) +
        (blues.map fun b => rdCut (c.reward b).subsidy).sum +
        (blues.map fun b => minerCut (c.reward b).subsidy - c.minerPaid b).sum
      = (blues.map fun b => (c.reward b).subsidy + (c.reward b).totalFees).sum := by
  rw [totalValue_flatMap]
  induction blues with
  | nil => rfl
  | cons blue blues ih =>
    obtain ⟨hblue, hblues⟩ := forall_mem_cons.mp h
    have hrest := ih hblues
    have hparts := cuts_add (c.reward blue).subsidy
    simp only [map_cons, sum_cons, totalValue_blueOutputs] at hrest ⊢
    omega

/-- The reds: what the merging miner gets and what is burned is what they earned. -/
theorem reds_conserved (reds : List Hash) :
    (reds.map (m.redSubsidy c)).sum + (reds.map (m.redFees c)).sum =
      (reds.map fun r => (c.reward r).totalFees).sum +
        ((reds.filter fun h => decide (h ∉ c.mergesetNonDaa)).map fun r =>
          (c.reward r).subsidy).sum := by
  induction reds with
  | nil => rfl
  | cons red reds ih =>
    have hred := redSubsidy_add_redFees (m := m) (c := c) red
    rw [map_cons, map_cons, map_cons, filter_cons]
    by_cases hnon : red ∈ c.mergesetNonDaa <;> simp [hnon] at hred ih ⊢ <;> omega

/-- The outputs are worth what was earned. -/
theorem totalValue_coinbaseOutputs
    (h : ∀ blue ∈ c.daaBlues, c.minerPaid blue ≤ minerCut (c.reward blue).subsidy) :
    totalValue (m.coinbaseOutputs c) = c.earned := by
  have hblues := blues_conserved (m := m) h
  have hreds := reds_conserved (m := m) (c := c) c.ghostdagData.mergesetReds
  have hrd : rdCut (m.redSubsidyTotal c) ≤ m.redSubsidyTotal c := by
    have := cuts_add (m.redSubsidyTotal c)
    omega
  have hmints : totalValue (c.rewardMints.map fun mint => ⟨mint.2, mint.1⟩)
      = (c.rewardMints.map Prod.snd).sum := by
    rw [totalValue, map_map]
    rfl
  simp only [coinbaseOutputs, totalValue_append, totalValue_payment, earned,
    daaReds, rdTotal, rewardBurnTotal]
  simp only [redSubsidyTotal, redFeesTotal] at hrd ⊢
  omega

/-! ### Zero outputs and the number of outputs -/

theorem value_pos_of_mem_payment {value : ℕ} {spk : ScriptPublicKey} {o : TransactionOutput}
    (h : o ∈ payment value spk) : 0 < o.value := by
  rw [payment] at h
  split at h
  · next hpos =>
    obtain rfl := mem_singleton.mp h
    exact hpos
  · cases h

theorem length_payment_le : (payment value spk).length ≤ 1 := by
  rw [payment]
  split
  · exact le_rfl
  · exact Nat.zero_le 1

/-- No output is zero, the mints apart. -/
theorem value_pos_of_mem_coinbaseOutputs (hmints : ∀ mint ∈ c.rewardMints, 0 < mint.2)
    {o : TransactionOutput} (ho : o ∈ m.coinbaseOutputs c) : 0 < o.value := by
  simp only [coinbaseOutputs, blueOutputs, mem_append, mem_flatMap, mem_map] at ho
  rcases ho with ((((⟨blue, -, (ho | ho) | ho⟩ | ho) | ho) | ho) | ho) | ⟨mint, hmint, rfl⟩
  case inr => exact hmints mint hmint
  all_goals exact value_pos_of_mem_payment ho

/-- A blue has at most three outputs. -/
theorem length_blues_le (blues : List Hash) :
    (blues.flatMap (m.blueOutputs c)).length ≤ 3 * blues.length := by
  induction blues with
  | nil => exact Nat.zero_le _
  | cons blue blues ih =>
    have hfees := length_payment_le (c.reward blue).totalFees m.burnScriptPublicKey
    have hpaid := length_payment_le (c.minerPaid blue) (c.reward blue).scriptPublicKey
    have hescrow := length_payment_le (escrowCut (c.reward blue).subsidy)
      ((c.reward blue).escrowScriptPublicKey.getD m.burnScriptPublicKey)
    rw [flatMap_cons, length_append, blueOutputs, length_append, length_append, length_cons]
    omega

/-- The outputs stay within the limit of the validator. -/
theorem length_coinbaseOutputs_le {ghostdagK : ℕ}
    (hblues : c.ghostdagData.mergesetBlues.length ≤ ghostdagK + 1)
    (hmints : c.rewardMints.length ≤ maxRewardMintsPerBlock) :
    (m.coinbaseOutputs c).length ≤ coinbaseOutputsLimit ghostdagK true true := by
  have hdaa : c.daaBlues.length ≤ c.ghostdagData.mergesetBlues.length := length_filter_le _ _
  have hown := length_blues_le (m := m) (c := c) c.daaBlues
  have hfees := length_payment_le (m.redFeesTotal c) m.burnScriptPublicKey
  have hreds := length_payment_le (m.redSubsidyTotal c - rdCut (m.redSubsidyTotal c))
    c.minerData.scriptPublicKey
  have hrd := length_payment_le (m.rdTotal c) m.rdAllocationScriptPublicKey
  have hburn := length_payment_le (rewardBurnTotal c) m.burnScriptPublicKey
  simp only [coinbaseOutputs, length_append, length_map, coinbaseOutputsLimit, if_true]
  omega

/-! ### Who is paid -/

/-- What some outputs pay to a script. -/
def paidTo (outputs : List TransactionOutput) (spk : ScriptPublicKey) : ℕ :=
  totalValue (outputs.filter fun o => decide (o.scriptPublicKey = spk))

/-- What a script is paid for blues as their producer's. -/
def paidAsProducer (c : CoinbaseCall) (spk : ScriptPublicKey) : ℕ :=
  (c.daaBlues.map fun b =>
    if (c.reward b).scriptPublicKey = spk then c.minerPaid b else 0).sum

/-- What a script is paid as an escrow, burn or treasury script, as the merging miner's, and by
mints. -/
def paidOtherwise (m : CoinbaseManager) (c : CoinbaseCall) (spk : ScriptPublicKey) : ℕ :=
  (c.daaBlues.map fun b =>
      (if m.burnScriptPublicKey = spk then (c.reward b).totalFees else 0) +
        if (c.reward b).escrowScriptPublicKey.getD m.burnScriptPublicKey = spk then
          escrowCut (c.reward b).subsidy else 0).sum +
    (if m.burnScriptPublicKey = spk then m.redFeesTotal c else 0) +
    (if c.minerData.scriptPublicKey = spk then
      m.redSubsidyTotal c - rdCut (m.redSubsidyTotal c) else 0) +
    (if m.rdAllocationScriptPublicKey = spk then m.rdTotal c else 0) +
    (if m.burnScriptPublicKey = spk then rewardBurnTotal c else 0) +
    (c.rewardMints.map fun mint => if mint.1 = spk then mint.2 else 0).sum

theorem paidTo_payment (s spk : ScriptPublicKey) :
    paidTo (payment value s) spk = if s = spk then value else 0 := by
  rw [paidTo, payment]
  split
  · by_cases hs : s = spk <;> simp [totalValue, hs]
  · next hzero => simp [totalValue, Nat.eq_zero_of_not_pos hzero]

theorem paidTo_append (l r : List TransactionOutput) (spk : ScriptPublicKey) :
    paidTo (l ++ r) spk = paidTo l spk + paidTo r spk := by
  rw [paidTo, filter_append, totalValue_append]
  rfl

theorem paidTo_flatMap {α : Type} (f : α → List TransactionOutput) (l : List α)
    (spk : ScriptPublicKey) :
    paidTo (l.flatMap f) spk = (l.map fun a => paidTo (f a) spk).sum := by
  rw [paidTo, filter_flatMap, totalValue_flatMap]
  rfl

theorem paidTo_mints (mints : List (ScriptPublicKey × ℕ)) (spk : ScriptPublicKey) :
    paidTo (mints.map fun mint => ⟨mint.2, mint.1⟩) spk
      = (mints.map fun mint => if mint.1 = spk then mint.2 else 0).sum := by
  induction mints with
  | nil => rfl
  | cons mint mints ih =>
    rw [map_cons, map_cons, sum_cons, ← ih, paidTo, paidTo]
    by_cases hs : mint.1 = spk <;> simp [totalValue, hs]

/-- Every script is paid as a producer's and in its other roles, and nothing else. -/
theorem paidTo_coinbaseOutputs :
    paidTo (m.coinbaseOutputs c) spk = paidAsProducer c spk + paidOtherwise m c spk := by
  simp only [coinbaseOutputs, blueOutputs, paidTo_append, paidTo_flatMap, paidTo_payment,
    paidTo_mints, paidAsProducer, paidOtherwise, sum_map_add]
  omega

/-! ### The builder returns -/

/-- The blues are rewarded if their totals fit. -/
theorem rewardBlues_of_fits
    (hfits : ∀ blue ∈ blues, (∃ data, c.mergesetRewards.get? blue = some data) ∧
      c.tierBps blue ≤ tierRewardBpsDivisor ∧ c.ratioBps blue ≤ ratioRewardBpsDivisor ∧
      (c.reward blue).subsidy * 10000 < 2 ^ 64)
    (hrd : s.rdTotal + (blues.map fun b => rdCut (c.reward b).subsidy).sum < 2 ^ 64)
    (hburn : s.rewardBurnTotal +
      (blues.map fun b => minerCut (c.reward b).subsidy - c.minerPaid b).sum < 2 ^ 64) :
    blues.foldlM (m.rewardBlue c) s = some (blues.foldl (m.afterBlue c) s) := by
  induction blues generalizing s with
  | nil => rfl
  | cons blue blues ih =>
    rw [map_cons, sum_cons, ← Nat.add_assoc] at hrd hburn
    obtain ⟨⟨hrewarded, htier, hratio, hsubsidy⟩, hrest⟩ := forall_mem_cons.mp hfits
    have hcut := minerCut_le (c.reward blue).subsidy
    have hblue : m.rewardBlue c s blue = some (m.afterBlue c s blue) := by
      refine rewardBlue_eq_some_iff.mpr ⟨hrewarded, fun _ => ⟨?_, ?_,
        (Nat.le_add_right _ _).trans_lt hrd, fun _ => ⟨?_, ?_⟩, minerPaid_le htier hratio,
        (Nat.le_add_right _ _).trans_lt hburn⟩, rfl⟩
      · exact (Nat.mul_le_mul_left _ (by decide)).trans_lt hsubsidy
      · exact (Nat.mul_le_mul_left _ (by decide)).trans_lt hsubsidy
      · exact (Nat.mul_le_mul hcut htier).trans_lt hsubsidy
      · exact (Nat.mul_le_mul ((bps_le htier).trans hcut) hratio).trans_lt hsubsidy
    rw [foldlM_cons, hblue, foldl_cons]
    exact ih hrest hrd hburn

/-- Every merged block has its reward data, and everything the builder computes fits a word. -/
structure CallFits (m : CoinbaseManager) (c : CoinbaseCall) : Prop where
  blues : ∀ blue ∈ c.daaBlues, ∃ data, c.mergesetRewards.get? blue = some data
  reds : ∀ red ∈ c.ghostdagData.mergesetReds, ∃ data, c.mergesetRewards.get? red = some data
  earned : c.earned < 2 ^ 64
  blueProducts : ∀ blue ∈ c.daaBlues, (c.reward blue).subsidy * 10000 < 2 ^ 64
  redProduct : m.redSubsidyTotal c * rdAllocationBps < 2 ^ 64
  script : c.minerData.scriptPublicKey.script.length ≤ m.coinbasePayloadScriptPublicKeyMaxLen

/-- The totals of the builder are parts of what was earned. -/
theorem totals_le_earned
    (h : ∀ blue ∈ c.daaBlues, c.minerPaid blue ≤ minerCut (c.reward blue).subsidy) :
    m.rdTotal c ≤ c.earned ∧ rewardBurnTotal c ≤ c.earned ∧
      m.redSubsidyTotal c + m.redFeesTotal c ≤ c.earned := by
  have hreds := reds_conserved (m := m) (c := c) c.ghostdagData.mergesetReds
  have hearned := totalValue_coinbaseOutputs (m := m) h
  simp only [coinbaseOutputs, totalValue_append, totalValue_payment] at hearned
  refine ⟨by omega, by omega, ?_⟩
  rw [redSubsidyTotal, redFeesTotal, earned, daaReds]
  omega

/-- **The builder returns** a coinbase if everything it computes fits a word. -/
theorem expectedCoinbaseTransaction_of_fits (hfits : CallFits m c)
    (htier : ∀ blue ∈ c.daaBlues, c.tierBps blue ≤ tierRewardBpsDivisor)
    (hratio : ∀ blue ∈ c.daaBlues, c.ratioBps blue ≤ ratioRewardBpsDivisor) :
    ∃ t, m.expectedCoinbaseTransaction c = some (.ok t) := by
  have hearned := hfits.earned
  obtain ⟨hrd, hburn, hreds⟩ := totals_le_earned (m := m) (c := c)
    fun blue hblue => minerPaid_le (htier blue hblue) (hratio blue hblue)
  have hblues : c.daaBlues.foldlM (m.rewardBlue c) {}
      = some (c.daaBlues.foldl (m.afterBlue c) {}) := by
    refine rewardBlues_of_fits (fun blue h =>
      ⟨hfits.blues blue h, htier blue h, hratio blue h, hfits.blueProducts blue h⟩) ?_ ?_
    · rw [rdTotal] at hrd
      rw [Nat.zero_add]
      omega
    · rw [Nat.zero_add]
      exact hburn.trans_lt hearned
  have hredsRun : c.ghostdagData.mergesetReds.foldlM (m.rewardRed c) (0, 0)
      = some (m.redSubsidyTotal c, m.redFeesTotal c) := by
    refine (rewardReds_run_eq_some_iff (by decide) (by decide)).mpr ⟨hfits.reds, ?_, ?_, ?_⟩
    · rw [Nat.zero_add]
      change m.redSubsidyTotal c < _
      omega
    · rw [Nat.zero_add]
      change m.redFeesTotal c < _
      omega
    · rw [Nat.zero_add, Nat.zero_add]
      rfl
  obtain ⟨payload, hpayload⟩ : ∃ payload, m.serializeCoinbasePayload c.ghostdagData.blueScore
      (m.calcBlockSubsidy c.daaScore) c.minerData = .ok payload :=
    ⟨_, if_neg (Nat.not_lt.mpr hfits.script)⟩
  have hrdFits : (c.daaBlues.foldl (m.afterBlue c) {}).rdTotal + rdCut (m.redSubsidyTotal c)
      < 2 ^ 64 := by
    rw [foldl_afterBlue, Nat.zero_add]
    exact hrd.trans_lt hearned
  have hminer := (rewardReds_eq_some_iff (c := c) ((c.daaBlues.foldl (m.afterBlue c) {}).outputs ++
    payment (m.redFeesTotal c) m.burnScriptPublicKey) _).mpr
      ⟨fun _ => ⟨hfits.redProduct, hrdFits⟩, rfl⟩
  rw [CoinbaseCall.daaBlues] at hblues hminer
  simp only [expectedCoinbaseTransaction, hblues, hredsRun, some_bind, append_payment, hminer,
    hpayload]
  exact ⟨_, rfl⟩

/-! ### Conservation -/

/-- **Conservation of value**: with multipliers up to their divisors and positive mints, the
builder returns a coinbase if everything it computes fits a word. Whatever coinbase it returns is
worth what the mergeset earned, has no zero output and stays within the limit of the validator.
A script gets its cut of the blues it produced, each at most the subsidy without the treasury's
and the escrow's part, and otherwise only what the other roles of a script are paid. -/
theorem coinbase_conservation (htier : ∀ blue ∈ c.daaBlues, c.tierBps blue ≤ tierRewardBpsDivisor)
    (hratio : ∀ blue ∈ c.daaBlues, c.ratioBps blue ≤ ratioRewardBpsDivisor)
    (hmints : ∀ mint ∈ c.rewardMints, 0 < mint.2) :
    (CallFits m c → ∃ t, m.expectedCoinbaseTransaction c = some (.ok t)) ∧
      ∀ t, m.expectedCoinbaseTransaction c = some (.ok t) →
        totalValue t.tx.outputs = c.earned ∧
        (∀ o ∈ t.tx.outputs, 0 < o.value) ∧
        (∀ ghostdagK, c.ghostdagData.mergesetBlues.length ≤ ghostdagK + 1 →
          c.rewardMints.length ≤ maxRewardMintsPerBlock →
          t.tx.outputs.length ≤ coinbaseOutputsLimit ghostdagK true true) ∧
        (∀ spk, paidTo t.tx.outputs spk = paidAsProducer c spk + paidOtherwise m c spk) ∧
        ∀ blue ∈ c.daaBlues, c.minerPaid blue ≤ (c.reward blue).subsidy -
          rdCut (c.reward blue).subsidy - escrowCut (c.reward blue).subsidy := by
  refine ⟨fun hfits => expectedCoinbaseTransaction_of_fits hfits htier hratio, ?_⟩
  intro t ht
  obtain ⟨houtputs, hpaid⟩ := expectedCoinbaseTransaction_outputs ht
  rw [houtputs]
  exact ⟨totalValue_coinbaseOutputs hpaid, fun o ho => value_pos_of_mem_coinbaseOutputs hmints ho,
    fun ghostdagK hblues hcount => length_coinbaseOutputs_le hblues hcount,
    fun spk => paidTo_coinbaseOutputs spk, hpaid⟩

/-- A manager whose burn, treasury and payout scripts are one byte long. -/
def smallManager : CoinbaseManager where
  coinbasePayloadScriptPublicKeyMaxLen := 150
  emissionStartDaaScore := 0
  preEmissionBaseSubsidy := 0
  bps := 10
  bps_pos := by decide
  emissionSchedule := []
  tailEmissionPerBlock := 1000
  rdAllocationScriptPublicKey := ⟨0, [1]⟩
  burnScriptPublicKey := ⟨0, [2]⟩
  pomV3Activation := 100

/-- One blue at half its tier, one red, one mint. -/
def smallCall : CoinbaseCall where
  daaScore := 50
  minerData := ⟨⟨0, [3]⟩, []⟩
  ghostdagData :=
    { blueScore := 7, selectedParent := 1, mergesetBlues := [1], mergesetReds := [2],
      bluesAnticoneSizes := .empty }
  mergesetRewards := (OrdMap.empty.insert 1 ⟨1000, 10, ⟨0, [4]⟩, some ⟨0, [5]⟩⟩).insert 2
    ⟨600, 3, ⟨0, [6]⟩, none⟩
  mergesetNonDaa := []
  tierBpsByBlock := OrdMap.empty.insert 1 5000
  ratioBpsByBlock := OrdMap.empty
  suspendedBlues := []
  rewardMints := [(⟨0, [7]⟩, 25)]

/-- The small call meets every assumption: its coinbase is worth 1638. -/
theorem coinbase_conservation_small :
    ∃ t, smallManager.expectedCoinbaseTransaction smallCall = some (.ok t) ∧
      totalValue t.tx.outputs = 1638 ∧ t.tx.outputs.length ≤ coinbaseOutputsLimit 0 true true := by
  have hall : ∀ {p : Hash → Prop}, p 1 → ∀ blue ∈ smallCall.daaBlues, p blue := by
    intro p hp blue hblue
    rwa [mem_singleton.mp hblue]
  have hfits : CallFits smallManager smallCall :=
    { blues := hall ⟨_, rfl⟩
      reds := by
        intro red hred
        obtain rfl : red = 2 := mem_singleton.mp hred
        exact ⟨_, rfl⟩
      earned := by decide
      blueProducts := hall (by decide)
      redProduct := by decide
      script := by decide }
  obtain ⟨hreturns, hresult⟩ := coinbase_conservation (m := smallManager) (c := smallCall)
    (hall (by decide)) (hall (by decide)) (by decide)
  obtain ⟨t, ht⟩ := hreturns hfits
  obtain ⟨hvalue, -, hcount, -⟩ := hresult t ht
  exact ⟨t, ht, hvalue, hcount 0 (by decide) (by decide)⟩

end CoinbaseManager

end Tx

end KeryxNode
