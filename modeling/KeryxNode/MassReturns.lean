import Mathlib.Algebra.Order.BigOperators.Group.List
import KeryxNode.TxAdmission

/-!
# When the Mass of a Transaction is Computed

The mass formula divides by the plurality of the inputs and by their mean amount. The rules of
isolation keep the products in range, but they let responses and challenges pass without inputs,
and nothing keeps the mean from being zero. This module says exactly when the mass of a
transaction that passed isolation is computed, and that admission stops the program whenever it is
not.

## Main results

* `VirtualProcessor.calcContextualMasses_returns_iff`: the mass is computed or refused exactly if it
  is defined; otherwise admission stops the program.
-/

namespace KeryxNode

open List

namespace Tx

open Checked

namespace TransactionValidator

variable {V : TransactionValidator} {tx : Transaction} {entries : List UtxoEntry}
  {populated : List (TransactionInput × UtxoEntry)} {povDaaScore : ℕ}

/-! ### Isolation -/

/-- Output values that pass are positive and add up to at most the largest amount. -/
theorem checkOutputValueRanges_eq_ok {i total : ℕ} {outputs : List TransactionOutput}
    (h : checkOutputValueRanges i total outputs = .ok ()) (htotal : total ≤ maxSompi) :
    (∀ o ∈ outputs, 0 < o.value) ∧ total + totalValue outputs ≤ maxSompi := by
  induction outputs generalizing i total with
  | nil => exact ⟨fun _ ho => (by cases ho), htotal⟩
  | cons output outputs ih =>
    rw [checkOutputValueRanges, ite_error_eq_ok, ite_error_eq_ok] at h
    obtain ⟨hzero, -, h⟩ := h
    cases hsum : u64 (total + output.value) with
    | none => rw [hsum] at h; cases h
    | some sum =>
      obtain ⟨-, rfl⟩ := u64_eq_some.mp hsum
      rw [hsum] at h
      obtain ⟨hle, h⟩ := ite_error_eq_ok.mp h
      obtain ⟨hrest, hbound⟩ := ih h (Nat.not_lt.mp hle)
      refine ⟨forall_mem_cons.mpr ⟨Nat.pos_of_ne_zero hzero, hrest⟩, ?_⟩
      rw [totalValue, map_cons, sum_cons, ← Nat.add_assoc]
      exact hbound

/-- What a transaction that passed isolation keeps to. -/
structure Isolated (V : TransactionValidator) (tx : Transaction) : Prop where
  inputs : tx.inputs.length ≤ V.maxTxInputs
  outputs : tx.isCoinbase = false → tx.outputs.length ≤ V.maxTxOutputs
  scripts : ∀ o ∈ tx.outputs, o.scriptPublicKey.script.length ≤ V.maxScriptPublicKeyLen
  values : ∀ o ∈ tx.outputs, 0 < o.value
  total : totalValue tx.outputs ≤ maxSompi

/-- **Isolation**: the limits of a transaction that passed. -/
theorem isolated_of_ok (h : V.validateTxInIsolation tx = .ok ()) : V.Isolated tx := by
  simp only [validateTxInIsolation, bind_unit_eq_ok] at h
  obtain ⟨hin, -, hout, hspk, -, hvalues, -⟩ := h
  obtain ⟨hpositive, htotal⟩ := checkOutputValueRanges_eq_ok hvalues (Nat.zero_le _)
  rw [Nat.zero_add] at htotal
  refine ⟨?_, ?_, ?_, hpositive, htotal⟩
  · simp only [checkTransactionInputsCount, ite_error_eq_ok] at hin
    exact Nat.not_lt.mp hin.2.1
  · intro hcoinbase
    rw [checkTransactionOutputsCount, hcoinbase, if_neg Bool.false_ne_true, ite_error_eq_ok] at hout
    exact Nat.not_lt.mp hout.1
  · intro o ho
    rw [checkTransactionScriptPublicKeys] at hspk
    cases hfind : tx.outputs.findIdx? fun o =>
        decide (V.maxScriptPublicKeyLen < o.scriptPublicKey.script.length) with
    | some i => rw [hfind] at hspk; cases hspk
    | none =>
      have hle := findIdx?_eq_none_iff.mp hfind o ho
      exact Nat.not_lt.mp (of_decide_eq_false hle)

/-! ### Cells -/

/-- Cells up to a number and up to a plurality fit the formula. -/
theorem cellsFit_of_bounds {stormParam count plurality : ℕ} {cells : List UtxoCell}
    (hamounts : ∀ cell ∈ cells, 0 < cell.amount)
    (hunits : ∀ cell ∈ cells, 1 ≤ cell.plurality ∧ cell.plurality ≤ plurality)
    (hcount : cells.length ≤ count) (hproduct : stormParam * plurality * plurality < 2 ^ 64)
    (htotal : count * plurality < 2 ^ 64) : CellsFit stormParam cells where
  amounts := hamounts
  units := fun cell hcell => (hunits cell hcell).1
  products := fun cell hcell =>
    (Nat.mul_le_mul (Nat.mul_le_mul_left _ (hunits cell hcell).2) (hunits cell hcell).2).trans_lt
      hproduct
  total := by
    have hsum : totalPlurality cells ≤ cells.length * plurality := by
      rw [← length_map UtxoCell.plurality]
      refine sum_le_card_nsmul _ _ fun p hp => ?_
      obtain ⟨cell, hcell, rfl⟩ := mem_map.mp hp
      exact (hunits cell hcell).2
    exact (hsum.trans (Nat.mul_le_mul_right _ hcount)).trans_lt htotal

theorem utxoPlurality_le_max {spk : ScriptPublicKey}
    (h : spk.script.length ≤ V.maxScriptPublicKeyLen) :
    utxoPlurality spk ≤ maxPlurality V.maxScriptPublicKeyLen :=
  Nat.div_le_div_right (by omega)

/-- The coins of a transaction within the limits fit the formula. -/
theorem cellsFit_entries (hcount : entries.length ≤ V.maxTxInputs)
    (hamounts : ∀ e ∈ entries, 0 < e.amount)
    (hscripts : ∀ e ∈ entries, e.scriptPublicKey.script.length ≤ V.maxScriptPublicKeyLen) :
    CellsFit V.storageMassParameter (entries.map UtxoCell.ofEntry) := by
  refine cellsFit_of_bounds ?_ ?_ (by rwa [length_map]) V.product_fits V.inputs_fit
  · exact forall_mem_map.mpr hamounts
  · exact forall_mem_map.mpr fun e he =>
      ⟨one_le_utxoPlurality _, utxoPlurality_le_max (hscripts e he)⟩

/-- The outputs of a transaction that passed isolation fit the formula. -/
theorem cellsFit_outputs (h : V.Isolated tx) (hcoinbase : tx.isCoinbase = false) :
    CellsFit V.storageMassParameter (tx.outputs.map UtxoCell.ofOutput) := by
  refine cellsFit_of_bounds ?_ ?_ (by rw [length_map]; exact h.outputs hcoinbase)
    V.product_fits V.outputs_fit
  · exact forall_mem_map.mpr h.values
  · exact forall_mem_map.mpr fun o ho =>
      ⟨one_le_utxoPlurality _, utxoPlurality_le_max (h.scripts o ho)⟩

/-! ### Rules that do not stop the program -/

/-- What the scores of the coins have to keep to for the additions of the rules. -/
structure ScoresFit (V : TransactionValidator) (entries : List UtxoEntry) : Prop where
  maturity : ∀ e ∈ entries, e.blockDaaScore + V.coinbaseMaturity < 2 ^ 64
  scores : ∀ e ∈ entries, e.blockDaaScore < 2 ^ 63 - 2 ^ 32

theorem checkCoinbaseMaturity_ne_panicked {i : ℕ}
    (h : ∀ p ∈ populated, p.2.blockDaaScore + V.coinbaseMaturity < 2 ^ 64) :
    V.checkCoinbaseMaturity povDaaScore i populated ≠ .error .panicked := by
  induction populated generalizing i with
  | nil => exact nofun
  | cons p populated ih =>
    obtain ⟨hentry, hrest⟩ := forall_mem_cons.mp h
    rw [checkCoinbaseMaturity]
    split
    · rw [u64_of_lt hentry]
      refine bind_ne_panicked nofun fun mature _ => ?_
      split
      · exact nofun
      · exact ih hrest
    · exact ih hrest

theorem checkSpkRuleInputs_ne_panicked :
    checkSpkRuleInputs povDaaScore populated ≠ .error .panicked := by
  rw [checkSpkRuleInputs]
  split
  · exact nofun
  · split <;> exact nofun

theorem checkInputAmounts_ne_panicked {total : ℕ} :
    checkInputAmounts total entries ≠ .error .panicked := by
  induction entries generalizing total with
  | nil => exact nofun
  | cons entry entries ih =>
    rw [checkInputAmounts]
    split
    · exact nofun
    · split
      · exact nofun
      · exact ih

theorem checkAiChallengeDeposit_ne_panicked {totalIn : ℕ} :
    V.checkAiChallengeDeposit tx totalIn ≠ .error .panicked := by
  rw [checkAiChallengeDeposit]
  split
  · exact nofun
  · split
    · exact nofun
    · dsimp only
      split
      · exact nofun
      · split
        · exact nofun
        · split <;> exact nofun

theorem checkTransactionOutputValues_ne_panicked {totalIn : ℕ}
    (h : totalValue tx.outputs < 2 ^ 64) :
    checkTransactionOutputValues tx totalIn ≠ .error .panicked := by
  rw [checkTransactionOutputValues, u64_of_lt h]
  refine bind_ne_panicked nofun fun totalOut _ => ?_
  split <;> exact nofun

/-- A relative lock is at most the mask, so its score fits a signed word. -/
theorem sequenceLocked_eq_some (povDaaScore : ℕ) (input : TransactionInput) {entry : UtxoEntry}
    (h : entry.blockDaaScore < 2 ^ 63 - 2 ^ 32) :
    ∃ locked, sequenceLocked povDaaScore input entry = some locked := by
  rw [sequenceLocked]
  split
  · exact ⟨false, rfl⟩
  · have hlock : input.sequence &&& sequenceLockTimeMask ≤ sequenceLockTimeMask := Nat.and_le_right
    rw [sequenceLockTimeMask] at hlock
    have hscore : asI64 entry.blockDaaScore = entry.blockDaaScore := if_pos (by omega)
    have hrelative : asI64 (input.sequence &&& sequenceLockTimeMask)
        = ((input.sequence &&& sequenceLockTimeMask : ℕ) : ℤ) :=
      if_pos (by rw [sequenceLockTimeMask]; omega)
    rw [hrelative, sequenceLockTimeMask]
    dsimp only
    rw [i64_of_range (by omega) (by omega), some_bind, i64_of_range (by omega) (by omega)]
    exact ⟨_, rfl⟩

theorem checkSequenceLock_ne_panicked (h : ∀ p ∈ populated, p.2.blockDaaScore < 2 ^ 63 - 2 ^ 32) :
    checkSequenceLock povDaaScore populated ≠ .error .panicked := by
  induction populated with
  | nil => exact nofun
  | cons p populated ih =>
    obtain ⟨input, entry⟩ := p
    obtain ⟨hentry, hrest⟩ := forall_mem_cons.mp h
    obtain ⟨locked, hlocked⟩ := sequenceLocked_eq_some povDaaScore input hentry
    rw [checkSequenceLock, hlocked]
    refine bind_ne_panicked nofun fun locked _ => ?_
    split
    · exact nofun
    · exact ih hrest

theorem checkScriptsUnlessSkipped_ne_panicked {flags : TxValidationFlags} :
    V.checkScriptsUnlessSkipped tx entries flags ≠ .error .panicked := by
  have hscripts : V.checkScripts tx entries ≠ .error .panicked := by
    rw [checkScripts]
    split
    · split <;> exact nofun
    · exact nofun
  cases flags with
  | full => exact hscripts
  | skipMassCheck => exact hscripts
  | skipScriptChecks => exact nofun

/-- **The rules of populated transactions** do not stop the program when the mass is already set,
the scores fit and the mass a fee rate is measured by is positive. -/
theorem validatePopulated_ne_panicked {threshold : Option (ℕ × (ℕ → ℕ → Bool))}
    (hscores : V.ScoresFit entries) (houtputs : totalValue tx.outputs < 2 ^ 64)
    (hthreshold : ∀ mass tooLow, threshold = some (mass, tooLow) → mass ≠ 0) :
    V.validatePopulatedTransactionAndGetFee tx entries povDaaScore .skipMassCheck threshold
      ≠ .error .panicked := by
  have hmem : ∀ p ∈ tx.inputs.zip entries, p.2 ∈ entries := fun p hp => (of_mem_zip hp).2
  refine bind_ne_panicked
    (checkCoinbaseMaturity_ne_panicked fun p hp => hscores.maturity _ (hmem p hp)) fun _ _ => ?_
  refine bind_ne_panicked checkSpkRuleInputs_ne_panicked fun _ _ => ?_
  refine bind_ne_panicked checkInputAmounts_ne_panicked fun totalIn _ => ?_
  refine bind_ne_panicked checkAiChallengeDeposit_ne_panicked fun _ _ => ?_
  refine bind_ne_panicked (checkTransactionOutputValues_ne_panicked houtputs) fun totalOut _ => ?_
  refine bind_ne_panicked nofun fun _ _ => ?_
  refine bind_ne_panicked
    (checkSequenceLock_ne_panicked fun p hp => hscores.scores _ (hmem p hp)) fun _ _ => ?_
  refine bind_ne_panicked ?_ fun _ _ => ?_
  · cases threshold with
    | none => exact nofun
    | some t =>
      obtain ⟨mass, tooLow⟩ := t
      rw [checkFeerateThreshold, if_neg (hthreshold mass tooLow rfl)]
      split <;> exact nofun
  · exact bind_ne_panicked checkScriptsUnlessSkipped_ne_panicked fun _ _ h => (by cases h)

end TransactionValidator

/-! ### Admission -/

namespace VirtualProcessor

variable {N : VirtualProcessor} {m : MutableTransaction} {view : UtxoView}
  {entries : List UtxoEntry} {povDaaScore : ℕ} {args : TransactionValidationArgs}

/-- The mass of a transaction on its way into the mempool is defined. -/
def MassDefinedFor (N : VirtualProcessor) (tx : Transaction) (entries : List UtxoEntry) : Prop :=
  MassDefined tx.isCoinbase (entries.map UtxoCell.ofEntry) (tx.outputs.map UtxoCell.ofOutput)
    N.transactionValidator.storageMassParameter

/-- Everything but the mass formula fits: the scores of the coins, and a positive mass known
before if a fee rate is to be beaten. -/
structure AdmissionFits (N : VirtualProcessor) (m : MutableTransaction) (entries : List UtxoEntry)
    (args : TransactionValidationArgs) : Prop where
  scores : N.transactionValidator.ScoresFit entries
  feerate : ∀ threshold, args.feerateThreshold = some threshold →
    ∃ compute transient, m.calculatedNonContextualMasses = some (compute, transient) ∧
      0 < max compute transient

/-- All coins are found if the populated entries are. -/
theorem mapM_populated (h : populateMempoolEntries view m = entries.map some) :
    (populateMempoolEntries view m).mapM id = some entries := by
  rw [h, mapM_eq_some, forall₂_map_left_iff]
  exact forall₂_same.mpr fun _ _ => rfl

/-- There is one coin for each input. -/
theorem length_populated (h : populateMempoolEntries view m = entries.map some) :
    entries.length = m.tx.inputs.length := by
  have hlength := congrArg List.length h
  rw [populateMempoolEntries, length_zipWith, m.aligned, Nat.min_self, length_map]
    at hlength
  exact hlength.symm

/-- A burned claim is found, or the check passes. -/
theorem checkBurned_eq_ok {tx : Transaction} :
    N.checkBurned tx povDaaScore = .ok () ↔
      N.burnedOutpoints (tx.inputs.map TransactionInput.previousOutpoint) povDaaScore = [] := by
  rw [checkBurned]
  split
  · next hnil => exact iff_of_true rfl hnil
  · next o os hcons =>
    rw [hcons]
    exact iff_of_false nofun nofun

/-- Where the mass formula stops the program, so does admission. -/
theorem validateMempool_panicked (h : populateMempoolEntries view m = entries.map some)
    (hburned : N.checkBurned m.tx povDaaScore = .ok ())
    (hmass : N.transactionValidator.calcContextualMasses m.tx entries = none) :
    N.validateMempoolTransactionInUtxoContext m view povDaaScore args = .error .panicked := by
  have hmap := mapM_populated h
  rw [validateMempoolTransactionInUtxoContext]
  split
  · next hnone =>
    rw [hmap] at hnone
    cases hnone
  · next found hfound =>
    obtain rfl := Option.mem_unique hmap hfound
    rw [hburned, hmass]
    rfl

/-- Where the mass is computed and everything else fits, admission returns a result. -/
theorem validateMempool_ne_panicked (h : populateMempoolEntries view m = entries.map some)
    (hisolated : N.transactionValidator.Isolated m.tx) (hfits : N.AdmissionFits m entries args)
    {masses : Option ℕ}
    (hmass : N.transactionValidator.calcContextualMasses m.tx entries = some masses) :
    N.validateMempoolTransactionInUtxoContext m view povDaaScore args ≠ .error .panicked := by
  have hmap := mapM_populated h
  have houtputs : totalValue m.tx.outputs < 2 ^ 64 := hisolated.total.trans_lt (by decide)
  rw [validateMempoolTransactionInUtxoContext]
  split
  · exact nofun
  · next found hfound =>
    obtain rfl := Option.mem_unique hmap hfound
    refine bind_ne_panicked ?_ fun _ _ => ?_
    · rw [checkBurned]
      split <;> exact nofun
    rw [hmass]
    refine bind_ne_panicked nofun fun masses _ => ?_
    cases masses with
    | none => exact nofun
    | some storageMass =>
      refine bind_ne_panicked ?_ fun threshold hthreshold => ?_
      · rw [feerateArgs]
        split
        · exact nofun
        · next t ht =>
          obtain ⟨compute, transient, hmasses, -⟩ := hfits.feerate t ht
          rw [hmasses]
          exact nofun
      · refine bind_ne_panicked (TransactionValidator.validatePopulated_ne_panicked hfits.scores
          houtputs ?_) fun fee _ => nofun
        -- the mass handed to the fee rate check is at least the masses known before
        intro mass tooLow hsome
        rw [feerateArgs] at hthreshold
        split at hthreshold
        · rw [← Except.ok.inj hthreshold] at hsome
          cases hsome
        · next t ht =>
          obtain ⟨compute, transient, hmasses, hpos⟩ := hfits.feerate t ht
          rw [hmasses] at hthreshold
          rw [← Except.ok.inj hthreshold] at hsome
          cases hsome
          omega

/-- **The mass of an isolated transaction**: for coins of positive amounts and scripts within the
limit, the mass is computed or refused exactly if it is defined. Then admission returns a result,
if everything else fits; otherwise it stops the program, unless a burned claim is found before. -/
theorem calcContextualMasses_returns_iff
    (hisolated : N.transactionValidator.validateTxInIsolation m.tx = .ok ())
    (hentries : populateMempoolEntries view m = entries.map some)
    (hamounts : ∀ e ∈ entries, 0 < e.amount)
    (hscripts : ∀ e ∈ entries, e.scriptPublicKey.script.length ≤
      N.transactionValidator.maxScriptPublicKeyLen) :
    ((∃ masses, N.transactionValidator.calcContextualMasses m.tx entries = some masses) ↔
      N.MassDefinedFor m.tx entries) ∧
      (N.MassDefinedFor m.tx entries → N.AdmissionFits m entries args →
        N.validateMempoolTransactionInUtxoContext m view povDaaScore args ≠ .error .panicked) ∧
      (¬ N.MassDefinedFor m.tx entries →
        N.burnedOutpoints (m.tx.inputs.map TransactionInput.previousOutpoint) povDaaScore = [] →
        N.validateMempoolTransactionInUtxoContext m view povDaaScore args = .error .panicked) := by
  have hlimits := TransactionValidator.isolated_of_ok hisolated
  have hcount : entries.length ≤ N.transactionValidator.maxTxInputs :=
    (length_populated hentries).trans_le hlimits.inputs
  have hiff : (∃ masses, N.transactionValidator.calcContextualMasses m.tx entries = some masses) ↔
      N.MassDefinedFor m.tx entries :=
    calcStorageMass_returns_iff
      (fun _ => TransactionValidator.cellsFit_entries hcount hamounts hscripts)
      (fun hcoinbase => TransactionValidator.cellsFit_outputs hlimits hcoinbase)
  refine ⟨hiff, fun hdefined hfits => ?_, fun hundefined hburned => ?_⟩
  · obtain ⟨masses, hmass⟩ := hiff.mpr hdefined
    exact validateMempool_ne_panicked hentries hlimits hfits hmass
  · refine validateMempool_panicked hentries (checkBurned_eq_ok.mpr hburned) ?_
    cases hmass : N.transactionValidator.calcContextualMasses m.tx entries with
    | none => rfl
    | some masses => exact absurd (hiff.mp ⟨masses, hmass⟩) hundefined

/-! ### A response without inputs -/

/-- The limits of all networks. -/
def networkValidator (scriptPasses : Transaction → List (ℕ × ScriptPublicKey) → ℕ → Bool) :
    TransactionValidator where
  maxTxInputs := 1000
  maxTxOutputs := 1000
  maxSignatureScriptLen := 10000
  maxScriptPublicKeyLen := 10000
  coinbasePayloadScriptPublicKeyMaxLen := 150
  coinbaseMaturity := 1000
  ghostdagK := 124
  storageMassParameter := 1000000000000
  burnScriptPublicKey := ⟨0, [0x6a]⟩
  scriptPasses := scriptPasses
  product_fits := by decide
  inputs_fit := by decide
  outputs_fit := by decide

/-- A processor in the era of the sixth fork, with an engine that lets every script pass. -/
def openProcessor : VirtualProcessor where
  transactionValidator := networkValidator fun _ _ _ => true
  txId := fun _ => 0
  blake2b := fun bytes => bytes.take 32
  serviceBurned := fun _ => none
  finalityDepth := 432000
  modelCapEnforcementActivation := 0
  pomV3Activation := 0
  rewardRoutingActivation := 0
  coinAgeActivation := 0
  inferenceMinH2Activation := 0
  opoiV2Activation := 0
  inferenceRewardMinimums := []
  inferenceRewardMinimumsV2 := []
  inferenceRewardMinimumsV2H2 := []

/-- A coin of two units paid to two outputs, on its way into the mempool with its coin found. -/
def paymentEntry : MutableTransaction where
  tx := { inputs := [{ previousOutpoint := ⟨1, 0⟩ }]
          outputs := [⟨100000000, ⟨0, []⟩⟩, ⟨50000000, ⟨0, []⟩⟩] }
  entries := [some ⟨200000000, ⟨0, []⟩, 5, false, 5⟩]
  aligned := rfl

/-- The mass of the payment is computed and its admission returns a result. -/
theorem calcContextualMasses_returns_payment :
    (∃ masses, openProcessor.transactionValidator.calcContextualMasses paymentEntry.tx
      [⟨200000000, ⟨0, []⟩, 5, false, 5⟩] = some masses) ∧
      openProcessor.validateMempoolTransactionInUtxoContext paymentEntry (fun _ => none) 10 {}
        ≠ .error .panicked := by
  have hdefined : openProcessor.MassDefinedFor paymentEntry.tx
      [⟨200000000, ⟨0, []⟩, 5, false, 5⟩] := by
    rw [MassDefinedFor]
    decide
  obtain ⟨hiff, hreturns, -⟩ := @calcContextualMasses_returns_iff openProcessor paymentEntry
    (fun _ => none) [⟨200000000, ⟨0, []⟩, 5, false, 5⟩] 10 {} (by decide) rfl (by decide)
    (by decide)
  exact ⟨hiff.mpr hdefined, hreturns hdefined ⟨⟨by decide, by decide⟩, nofun⟩⟩

/-- A response to some request, without inputs and with two outputs. -/
def inputlessResponse : Transaction where
  outputs := [⟨100000000, ⟨0, []⟩⟩, ⟨100000000, ⟨0, []⟩⟩]
  subnetworkId := .aiResponse
  payload := List.replicate 78 1

theorem inputless_aligned :
    ([] : List (Option UtxoEntry)).length = ([] : List TransactionInput).length :=
  rfl

def inputlessResponseEntry : MutableTransaction where
  tx := inputlessResponse
  entries := []
  aligned := inputless_aligned

/-- The response passes isolation, has no coin to be populated, and stops the program at
admission: its mean input amount is a division by zero. -/
theorem inputlessResponse_panics :
    openProcessor.transactionValidator.validateTxInIsolation inputlessResponse = .ok () ∧
      openProcessor.transactionValidator.calcContextualMasses inputlessResponse [] = none ∧
      openProcessor.validateMempoolTransactionInUtxoContext inputlessResponseEntry
        (fun _ => none) 0 {} = .error .panicked := by
  have hmass : openProcessor.transactionValidator.calcContextualMasses inputlessResponse []
      = none := by decide
  exact ⟨by decide, hmass, validateMempool_panicked rfl rfl hmass⟩

end VirtualProcessor

end Tx

end KeryxNode
