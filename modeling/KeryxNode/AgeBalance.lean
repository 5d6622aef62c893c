import KeryxNode.AgeExact

/-!
# The Coin-Age Numerator

A rewarded block needs the effective balance of an address in its own view, at its own score.
The committed index belongs to the node's virtual: another set, split at another score. The
reader corrects for both (`effBalanceForSpk`): queue entries between the watermark and the
score of the block move amounts across the split, and the diffs from the virtual set to the
block's view are folded in at the block's split.

Both corrections may concern the same coin. On an exact index they compose: the first gives
the classification of the virtual set at the block's score, the second takes it to the view.

## Main results

* `eff_balance_direct`: the value is that of the direct classification of the view, so nodes
  with different virtuals agree.
-/

namespace KeryxNode

/-! ### The reader -/

/-- What promoting a queued coin changes. -/
def MaturationEntry.promotion (e : MaturationEntry) : AgeDelta :=
  (e.amount, -e.amount, -(e.amount * e.anchor))

/-- What promoting the queued coins of an address changes. -/
def promotionOf (spk : ScriptPublicKey) (due : List (MaturationKey × MaturationEntry)) :
    AgeDelta :=
  (due.map fun d => if d.2.scriptPublicKey = spk then d.2.promotion else 0).sum

/-- The effective balance of an address at a score, in the view the diffs lead to. -/
def AgeIndex.effBalanceForSpk (P : CoinAgeParams) (ix : AgeIndex) (spk : ScriptPublicKey)
    (povDaaScore : ℕ) (viewDiffs : List UtxoDiff) : ℕ :=
  let watermark := ix.watermark.getD povDaaScore
  let split :=
    if watermark ≤ povDaaScore then
      promotionOf spk (ix.queue.dueRange watermark povDaaScore)
    else
      -- Pure re-adds are skipped, as the sweep does.
      -promotionOf spk ((ix.queue.dueRange povDaaScore watermark).filter fun d =>
        !((viewDiffs.any fun v => v.add.contains d.1.outpoint) &&
          !viewDiffs.any fun v => v.remove.contains d.1.outpoint))
  let content := (viewDiffs.map fun v => ageDeltaForSpk v spk (P.matureBound povDaaScore)).sum
  let b := (ix.buckets spk).change (split + content)
  effBalanceFromBuckets b.bMat b.bImm b.aImm povDaaScore P.coinAgeMaturityW

/-! ### Successive diffs -/

/-- The set the diffs lead to. -/
def writeAll (set : UtxoCollection) (diffs : List UtxoDiff) : UtxoCollection :=
  diffs.foldl (fun s d => d.writeTo s) set

/-- **The content correction**: the classification changes by the diffs. -/
theorem ageMass_writeAll (spk : ScriptPublicKey) (matureBound : ℕ) (diffs : List UtxoDiff) :
    ∀ {set : UtxoCollection}, ApplyInTurn set diffs →
      (writeAll set diffs).ageMass spk matureBound
        = set.ageMass spk matureBound
          + (diffs.map fun d => ageDeltaForSpk d spk matureBound).sum := by
  induction diffs with
  | nil => exact fun _ => (add_zero _).symm
  | cons d ds ih =>
    rintro set ⟨hd, hds⟩
    rw [List.map_cons, List.sum_cons, ← add_assoc, ← ageMass_writeTo hd]
    exact ih hds

/-! ### The split -/

/-- The index is exact for a set at a watermark, its queue complete within the retention. -/
structure AgeExactAt (P : CoinAgeParams) (ix : AgeIndex) (set : UtxoCollection)
    (watermark : ℕ) : Prop where
  watermark_eq : ix.watermark = some watermark
  buckets : ∀ spk, ix.buckets spk = set.classified spk (P.matureBound watermark)
  backed : Backed P set ix.queue
  queued : Queued P (watermark - P.coinAgeRetention) set ix.queue

/-- The index after a run of commits that ends on its highest score. -/
theorem AgeInvariant.exactAt {P : CoinAgeParams} {n : AgeNode} {score : ℕ}
    (h : AgeInvariant P n score score) : AgeExactAt P n.index n.utxos score :=
  ⟨h.watermark, h.buckets, h.backed, h.queued⟩

/-- Promotions in terms of amounts and anchor mass. -/
theorem promotionOf_eq (spk : ScriptPublicKey) (due : List (MaturationKey × MaturationEntry)) :
    promotionOf spk due = (((dueMass spk due).1 : ℤ), -((dueMass spk due).1 : ℤ),
      -((dueMass spk due).2 : ℤ)) := by
  induction due with
  | nil => rfl
  | cons d due ih =>
    rw [promotionOf, List.map_cons, List.sum_cons, ← promotionOf, ih]
    by_cases hd : d.2.scriptPublicKey = spk
    · simp [dueMass, hd, MaturationEntry.promotion, add_comm]
    · simp [dueMass, hd]

namespace AgeExactAt

variable {P : CoinAgeParams} {ix : AgeIndex} {set : UtxoCollection} {watermark pov : ℕ}

/-- **The split correction** reclassifies the committed set at the score of the block. -/
theorem split (h : AgeExactAt P ix set watermark) (hw : P.coinAgeMaturityW ≤ watermark)
    (hp : P.coinAgeMaturityW ≤ pov) (hnear : watermark ≤ pov + P.coinAgeRetention)
    (spk : ScriptPublicKey) :
    (ix.buckets spk).toDelta
        + (if watermark ≤ pov then promotionOf spk (ix.queue.dueRange watermark pov)
            else -promotionOf spk (ix.queue.dueRange pov watermark))
      = set.ageMass spk (P.matureBound pov) := by
  rw [h.buckets, UtxoCollection.ageMass_eq]
  split
  · next hrise =>
    obtain ⟨hmat, himm, hmass⟩ := classified_crossing set spk hw hrise
    rw [promotionOf_eq, dueMass_dueRange h.backed h.queued (Nat.sub_le _ _)]
    refine Prod.ext ?_ (Prod.ext ?_ ?_) <;>
      simp only [AgeBuckets.toDelta, Prod.fst_add, Prod.snd_add] <;> omega
  · next hdrop =>
    obtain ⟨hmat, himm, hmass⟩ := classified_crossing set spk hp (not_le.mp hdrop).le
    rw [promotionOf_eq, dueMass_dueRange h.backed h.queued (Nat.sub_le_of_le_add hnear)]
    refine Prod.ext ?_ (Prod.ext ?_ ?_) <;>
      simp only [AgeBuckets.toDelta, Prod.fst_add, Prod.snd_add, Prod.fst_neg, Prod.snd_neg] <;>
      omega

end AgeExactAt

/-- **The numerator is that of the view**: on an exact index, with both scores past the
maturity, the watermark at most the retention above the score of the block, and the sums of
both sets in their range, the effective balance is the one of the direct classification of
the view at that score. -/
theorem eff_balance_direct (P : CoinAgeParams) (ix : AgeIndex) (set : UtxoCollection)
    (watermark pov : ℕ) (spk : ScriptPublicKey) (viewDiffs : List UtxoDiff)
    (hexact : AgeExactAt P ix set watermark) (hw : P.coinAgeMaturityW ≤ watermark)
    (hp : P.coinAgeMaturityW ≤ pov) (hnear : watermark ≤ pov + P.coinAgeRetention)
    (hdiffs : ApplyInTurn set viewDiffs) (hset : set.Fits) (hfits : (writeAll set viewDiffs).Fits) :
    let direct := (writeAll set viewDiffs).classified spk (P.matureBound pov)
    ix.effBalanceForSpk P spk pov viewDiffs
      = effBalanceFromBuckets direct.bMat direct.bImm direct.aImm pov P.coinAgeMaturityW := by
  intro direct
  have hrange : (ix.buckets spk).InRange := by
    rw [hexact.buckets]
    exact hset.classified spk _
  have hsplit := hexact.split hw hp hnear spk
  have hview : (ix.buckets spk).toDelta + ((if watermark ≤ pov then
        promotionOf spk (ix.queue.dueRange watermark pov)
      else -promotionOf spk (ix.queue.dueRange pov watermark))
        + (viewDiffs.map fun v => ageDeltaForSpk v spk (P.matureBound pov)).sum)
      = direct.toDelta := by
    rw [← add_assoc, hsplit, ← ageMass_writeAll spk _ viewDiffs hdiffs, UtxoCollection.ageMass_eq]
  rw [AgeIndex.effBalanceForSpk, hexact.watermark_eq, Option.getD_some,
    hexact.backed.filter_readded hdiffs,
    AgeBuckets.change_eq hrange (hfits.classified spk _) hview]

/-- A coin that is mature at the watermark and immature at the score of the block is
re-anchored by the block's view, where it is mature. -/
theorem eff_balance_direct_reanchored :
    (AgeIndex.rebuildAgeBucketsIndex ⟨10, 5⟩ {} (sampleCoin 5 4) 15).effBalanceForSpk ⟨10, 5⟩
      ⟨0, []⟩ 12 [⟨sampleCoin 5 1, sampleCoin 5 4⟩] = 5 := by
  have hexact : AgeExactAt ⟨10, 5⟩ (.rebuildAgeBucketsIndex ⟨10, 5⟩ {} (sampleCoin 5 4) 15)
      (sampleCoin 5 4) 15 :=
    (AgeInvariant.rebuilt (fits_sampleCoin (by decide) (by decide)) (by decide)).exactAt
  refine (eff_balance_direct ⟨10, 5⟩ _ (sampleCoin 5 4) 15 12 ⟨0, []⟩
    [⟨sampleCoin 5 1, sampleCoin 5 4⟩] hexact (by decide) (by decide) (by decide)
    ⟨UtxoDiff.Applies.of_entries (by decide) (by decide), trivial⟩
    (fits_sampleCoin (by decide) (by decide)) ?_).trans (by decide)
  have hview : writeAll (sampleCoin 5 4) [⟨sampleCoin 5 1, sampleCoin 5 4⟩] = sampleCoin 5 1 := by
    decide
  rw [hview]
  exact fits_sampleCoin (by decide) (by decide)

/-- Below the maturity score both coins have anchor zero: the committed one is demoted, the
one of the view counts as mature. The value is neither that of two mature coins, as the
saturating bound classifies them, nor that of two immature ones. And a coin whose anchor mass
does not fit an `i128` counts as if it were anchored at zero. -/
theorem eff_balance_fails :
    (let P : CoinAgeParams := ⟨10, 10⟩
      let ix := AgeIndex.rebuildAgeBucketsIndex P {} (sampleCoin 10 0) 12
      let diff : UtxoDiff := { add := .insert .empty ⟨2, 0⟩ ⟨10, ⟨0, []⟩, 0, false, 0⟩ }
      let direct := (writeAll (sampleCoin 10 0) [diff]).classified ⟨0, []⟩ (P.matureBound 5)
      AgeExactAt P ix (sampleCoin 10 0) 12 ∧ ApplyInTurn (sampleCoin 10 0) [diff] ∧
        ix.effBalanceForSpk P ⟨0, []⟩ 5 [diff]
          ≠ effBalanceFromBuckets direct.bMat direct.bImm direct.aImm 5 10 ∧
        ix.effBalanceForSpk P ⟨0, []⟩ 5 [diff] ≠ effBalanceFromBuckets 0 20 0 5 10) ∧
    let P : CoinAgeParams := ⟨10, 10⟩
    let set := sampleCoin (2 ^ 64 - 1) (2 ^ 64 - 100)
    let score := 2 ^ 64 - 95
    let direct := set.classified ⟨0, []⟩ (P.matureBound score)
    let ix := { AgeIndex.rebuildAgeBucketsIndex P {} set score with
      buckets := fun spk => set.classified spk (P.matureBound score) }
    AgeExactAt P ix set score ∧ ix.effBalanceForSpk P ⟨0, []⟩ score [] = 2 ^ 64 - 1 ∧
      effBalanceFromBuckets direct.bMat direct.bImm direct.aImm score 10 = 2 ^ 63 - 1 :=
  ⟨⟨(AgeInvariant.rebuilt (fits_sampleCoin (by decide) (by decide)) (by decide)).exactAt,
    ⟨UtxoDiff.Applies.of_entries (by decide) (by decide), trivial⟩, by decide, by decide⟩,
    ⟨rfl, fun _ => rfl, backed_rebuild _ {} _ _, queued_rebuild _ {} _ _⟩, by decide +kernel,
    by decide +kernel⟩

end KeryxNode
