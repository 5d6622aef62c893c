import KeryxNode.MassReturns

/-!
# What Admission Says about a Block

Admission to the mempool and the transaction rules of a block share most of their rules. This
module compares them. A transaction admitted at a score passes every rule of a block at that score
but one: the block compares the fee of a request with the priority fee its payload promises, which
admission never does.

## Main results

* `VirtualProcessor.verifyTransactions_admitted`: an admitted transaction in a block of its own.
-/

namespace KeryxNode

open List

namespace Tx

/-! ### The age of a coin plays no role -/

/-- A coin without its age anchor. -/
def forgetAge (e : UtxoEntry) : UtxoEntry :=
  { e with effectiveDaa := 0 }

namespace TransactionValidator

variable {V : TransactionValidator} {tx : Transaction} {entries entries' : List UtxoEntry}
  {povDaaScore : ℕ} {threshold : Option (ℕ × (ℕ → ℕ → Bool))} {flags : TxValidationFlags} {fee : ℕ}

theorem checkCoinbaseMaturity_forgetAge (i : ℕ) (populated : List (TransactionInput × UtxoEntry)) :
    V.checkCoinbaseMaturity povDaaScore i (populated.map (Prod.map id forgetAge))
      = V.checkCoinbaseMaturity povDaaScore i populated := by
  induction populated generalizing i with
  | nil => rfl
  | cons p populated ih =>
    rw [map_cons, checkCoinbaseMaturity, ih]
    rfl

theorem checkSpkRuleInputs_forgetAge (populated : List (TransactionInput × UtxoEntry)) :
    checkSpkRuleInputs povDaaScore (populated.map (Prod.map id forgetAge))
      = checkSpkRuleInputs povDaaScore populated := by
  rw [checkSpkRuleInputs, checkSpkRuleInputs, zipIdx_map, find?_map]
  have hsame : ((fun p : (TransactionInput × UtxoEntry) × ℕ =>
      spkRuleMatches p.1.2.scriptPublicKey.script povDaaScore) ∘
      Prod.map (Prod.map id forgetAge) id) = fun p =>
      spkRuleMatches p.1.2.scriptPublicKey.script povDaaScore := rfl
  rw [hsame]
  cases populated.zipIdx.find? fun p =>
      spkRuleMatches p.1.2.scriptPublicKey.script povDaaScore with
  | none => rfl
  | some p => rfl

theorem checkInputAmounts_forgetAge (total : ℕ) :
    checkInputAmounts total (entries.map forgetAge) = checkInputAmounts total entries := by
  induction entries generalizing total with
  | nil => rfl
  | cons e entries ih => simp only [map_cons, checkInputAmounts, ih, forgetAge]

theorem checkSequenceLock_forgetAge (populated : List (TransactionInput × UtxoEntry)) :
    checkSequenceLock povDaaScore (populated.map (Prod.map id forgetAge))
      = checkSequenceLock povDaaScore populated := by
  induction populated with
  | nil => rfl
  | cons p populated ih =>
    rw [map_cons, checkSequenceLock, ih]
    rfl

theorem calcContextualMasses_forgetAge :
    V.calcContextualMasses tx (entries.map forgetAge) = V.calcContextualMasses tx entries := by
  rw [calcContextualMasses, map_map]
  rfl

theorem checkScripts_forgetAge :
    V.checkScripts tx (entries.map forgetAge) = V.checkScripts tx entries := by
  rw [checkScripts, map_map]
  rfl

/-- The rules of populated transactions do not read the age of the coins. -/
theorem validatePopulated_forgetAge :
    V.validatePopulatedTransactionAndGetFee tx (entries.map forgetAge) povDaaScore flags threshold
      = V.validatePopulatedTransactionAndGetFee tx entries povDaaScore flags threshold := by
  simp only [validatePopulatedTransactionAndGetFee, zip_map_right, checkMassUnlessSkipped,
    checkMassCommitment, checkScriptsUnlessSkipped, checkCoinbaseMaturity_forgetAge,
    checkSpkRuleInputs_forgetAge, checkInputAmounts_forgetAge, checkSequenceLock_forgetAge,
    calcContextualMasses_forgetAge, checkScripts_forgetAge]

/-! ### Fees -/

/-- The amounts that pass add up. -/
theorem checkInputAmounts_eq_ok {total sum : ℕ} (h : checkInputAmounts total entries = .ok sum) :
    sum = total + (entries.map UtxoEntry.amount).sum := by
  induction entries generalizing total with
  | nil => exact (Except.ok.inj h).symm
  | cons e entries ih =>
    rw [checkInputAmounts] at h
    cases hsum : Checked.u64 (total + e.amount) with
    | none => rw [hsum] at h; cases h
    | some next =>
      obtain ⟨-, rfl⟩ := Checked.u64_eq_some.mp hsum
      rw [hsum] at h
      rw [ih (ite_error_eq_ok.mp h).2, map_cons, sum_cons, Nat.add_assoc]

/-- The total of outputs that pass is the sum of their values. -/
theorem checkTransactionOutputValues_eq_ok {totalIn totalOut : ℕ}
    (h : checkTransactionOutputValues tx totalIn = .ok totalOut) :
    totalOut = totalValue tx.outputs := by
  obtain ⟨out, hout, h⟩ := bind_eq_ok h
  obtain ⟨-, rfl⟩ := Checked.u64_eq_some.mp (orPanic_eq_ok.mp hout)
  exact (Except.ok.inj (ite_error_eq_ok.mp h).2).symm

/-- The rules of populated transactions, one by one. -/
theorem validatePopulated_eq_ok :
    V.validatePopulatedTransactionAndGetFee tx entries povDaaScore flags threshold = .ok fee ↔
      V.checkCoinbaseMaturity povDaaScore 0 (tx.inputs.zip entries) = .ok () ∧
      checkSpkRuleInputs povDaaScore (tx.inputs.zip entries) = .ok () ∧
      ∃ totalIn, checkInputAmounts 0 entries = .ok totalIn ∧
        V.checkAiChallengeDeposit tx totalIn = .ok () ∧
        ∃ totalOut, checkTransactionOutputValues tx totalIn = .ok totalOut ∧
          V.checkMassUnlessSkipped tx entries flags = .ok () ∧
          checkSequenceLock povDaaScore (tx.inputs.zip entries) = .ok () ∧
          checkFeerateThreshold (totalIn - totalOut) threshold = .ok () ∧
          V.checkScriptsUnlessSkipped tx entries flags = .ok () ∧ totalIn - totalOut = fee := by
  rw [validatePopulatedTransactionAndGetFee]
  simp only [↓bind_unit_eq_ok, bind_eq_ok_iff]
  simp only [pure, Except.pure, Except.ok.injEq]

/-- The fee is what the coins are worth less what the outputs are. -/
theorem fee_eq
    (h : V.validatePopulatedTransactionAndGetFee tx entries povDaaScore flags threshold = .ok fee) :
    fee = (entries.map UtxoEntry.amount).sum - totalValue tx.outputs := by
  obtain ⟨-, -, totalIn, hin, -, totalOut, hout, -, -, -, -, hfee⟩ := validatePopulated_eq_ok.mp h
  rw [← hfee, checkInputAmounts_eq_ok hin, checkTransactionOutputValues_eq_ok hout, Nat.zero_add]

/-- **The full rules**: a transaction that passes with its mass just set, against any fee rate,
passes with its mass checked and without one. -/
theorem validatePopulated_full
    (h : V.validatePopulatedTransactionAndGetFee tx entries povDaaScore .skipMassCheck threshold
      = .ok fee) (hmass : V.calcContextualMasses tx entries = some (some tx.mass)) :
    V.validatePopulatedTransactionAndGetFee tx entries povDaaScore .full none = .ok fee := by
  obtain ⟨hmaturity, hspk, totalIn, hin, hdeposit, totalOut, hout, -, hlock, -, hscripts, hfee⟩ :=
    validatePopulated_eq_ok.mp h
  have hcommitment : V.checkMassUnlessSkipped tx entries .full = .ok () := by
    rw [checkMassUnlessSkipped, checkMassCommitment, hmass]
    exact if_neg (not_not.mpr rfl)
  exact validatePopulated_eq_ok.mpr ⟨hmaturity, hspk, totalIn, hin, hdeposit, totalOut, hout,
    hcommitment, hlock, rfl, hscripts, hfee⟩

end TransactionValidator

namespace VirtualProcessor

variable {N : VirtualProcessor} {tx : Transaction} {req : AiRequestPayload}
  {minimums : List (List UInt8 × ℕ)} {routed : Bool} {daaScore : ℕ} {view : UtxoView}
  {validated : List ValidatedTransaction} {args : TransactionValidationArgs}
  {txs : List Transaction} {entries : List UtxoEntry} {m m' : MutableTransaction}

/-! ### Rules of requests -/

/-- The reward reaches the price of the model and the priority fee its floor. -/
def RewardFloor (req : AiRequestPayload) (minimums : List (List UInt8 × ℕ)) : Prop :=
  (∀ effectiveMin, effectiveMinimum req minimums = some effectiveMin →
    effectiveMin ≤ req.inferenceReward) ∧ minAiRequestPriorityFee ≤ req.priorityFee

/-- The second output locks the reward. -/
def EscrowLocked (outputs : List TransactionOutput) (req : AiRequestPayload) (routed : Bool) :
    Prop :=
  ∃ first escrowOut rest, outputs = first :: escrowOut :: rest ∧
    isEscrowScript escrowOut.scriptPublicKey routed = true ∧
    req.inferenceReward ≤ escrowOut.value

theorem checkAiRequestPayloadRules_eq_ok :
    N.checkAiRequestPayloadRules tx req minimums = .ok () ↔ RewardFloor req minimums := by
  have hfee : checkAiRequestPayloadRules.checkPriorityFee N tx req = .ok () ↔
      minAiRequestPriorityFee ≤ req.priorityFee := by
    rw [checkAiRequestPayloadRules.checkPriorityFee, ite_error_eq_ok, Nat.not_lt]
    exact and_iff_left rfl
  rw [checkAiRequestPayloadRules, RewardFloor]
  cases effectiveMinimum req minimums with
  | none => simpa using hfee
  | some effectiveMin =>
    simp only [ite_error_eq_ok, Nat.not_lt, hfee, Option.some.injEq, forall_eq']

theorem checkAiRequestEscrowOutput_eq_ok :
    N.checkAiRequestEscrowOutput tx req routed = .ok () ↔ EscrowLocked tx.outputs req routed := by
  rw [checkAiRequestEscrowOutput]
  rcases tx.outputs with _ | ⟨first, _ | ⟨escrowOut, rest⟩⟩
  · exact iff_of_false nofun (by rintro ⟨_, _, _, h, -⟩; cases h)
  · exact iff_of_false nofun (by rintro ⟨_, _, _, h, -⟩; cases h)
  · simp only [ite_error_eq_ok, Bool.not_eq_true', Bool.not_eq_false, Nat.not_lt, and_true]
    constructor
    · rintro ⟨hscript, hvalue⟩
      exact ⟨first, escrowOut, rest, rfl, hscript, hvalue⟩
    · rintro ⟨_, _, _, h, hscript, hvalue⟩
      cases h
      exact ⟨hscript, hvalue⟩

/-- The payload rules of requests hold for a transaction. -/
def PayloadRulesHold (tx : Transaction) (minimums : List (List UInt8 × ℕ)) (routed : Bool) : Prop :=
  ∀ req, request? tx = some req → RewardFloor req minimums ∧ EscrowLocked tx.outputs req routed

theorem checkAiRequestTxPayloadRules_eq_ok :
    N.checkAiRequestTxPayloadRules tx minimums routed = .ok () ↔
      PayloadRulesHold tx minimums routed := by
  rw [checkAiRequestTxPayloadRules, PayloadRulesHold]
  cases request? tx with
  | none => exact iff_of_true rfl nofun
  | some req =>
    simp only [bind_unit_eq_ok, checkAiRequestPayloadRules_eq_ok,
      checkAiRequestEscrowOutput_eq_ok, Option.some.injEq, forall_eq']

/-- All rules of one request: the payload rules, and the fee found for it. -/
theorem checkAiRequestInferenceReward_eq_ok :
    N.checkAiRequestInferenceReward validated minimums routed tx = .ok () ↔
      PayloadRulesHold tx minimums routed ∧ ∀ req, request? tx = some req →
        ∀ fee, N.calculatedFeeOf validated (N.txId tx) = some fee → req.priorityFee ≤ fee := by
  rw [checkAiRequestInferenceReward, PayloadRulesHold]
  cases request? tx with
  | none => exact iff_of_true rfl ⟨nofun, nofun⟩
  | some req =>
    have hfee : N.checkFeeCoversPriority validated tx req = .ok () ↔
        ∀ fee, N.calculatedFeeOf validated (N.txId tx) = some fee → req.priorityFee ≤ fee := by
      rw [checkFeeCoversPriority]
      cases N.calculatedFeeOf validated (N.txId tx) with
      | none => exact iff_of_true rfl nofun
      | some fee =>
        simp only [ite_error_eq_ok, Nat.not_lt, and_true, Option.some.injEq, forall_eq']
    simp only [bind_unit_eq_ok, checkAiRequestPayloadRules_eq_ok,
      checkAiRequestEscrowOutput_eq_ok, Option.some.injEq, forall_eq']
    tauto

/-- The gates of admission are those of the block. -/
theorem checkBlockGates_eq_ok :
    N.checkBlockGates daaScore tx = .ok () ↔ N.checkAdmissionGates tx daaScore = .ok () := by
  rw [checkBlockGates, checkAdmissionGates]
  split
  · rw [ite_error_eq_ok, ite_error_eq_ok]
    exact and_congr_right fun _ => iff_of_true rfl rfl
  · cases request? tx with
    | none => exact iff_of_true rfl rfl
    | some req => simp only [ite_error_eq_ok]

/-! ### Rules of a block -/

/-- Valid transactions are all kept. -/
theorem validateTransactionsInParallel_of_valid {flags : TxValidationFlags}
    (h : List.Forall₂ (fun tx v =>
      N.validateTransactionInUtxoContext tx view daaScore flags = .ok v) txs validated) :
    N.validateTransactionsInParallel view daaScore flags txs = .ok validated := by
  induction h with
  | nil => rfl
  | cons hv _ ih =>
    rw [validateTransactionsInParallel, hv]
    rw [ih]
    rfl

/-- What is kept is at most what was given, and if it is as much, all transactions are valid. -/
theorem validateTransactionsInParallel_eq_ok {flags : TxValidationFlags}
    (h : N.validateTransactionsInParallel view daaScore flags txs = .ok validated) :
    validated.length ≤ txs.length ∧ (txs.length ≤ validated.length →
      List.Forall₂ (fun tx v =>
        N.validateTransactionInUtxoContext tx view daaScore flags = .ok v) txs validated) := by
  induction txs generalizing validated with
  | nil =>
    cases h
    exact ⟨Nat.le_refl 0, fun _ => Forall₂.nil⟩
  | cons tx txs ih =>
    rw [validateTransactionsInParallel] at h
    cases hv : N.validateTransactionInUtxoContext tx view daaScore flags with
    | error e =>
      rw [hv] at h
      cases e with
      | panicked => cases h
      | rejected e =>
        obtain ⟨hle, -⟩ := ih h
        refine ⟨hle.trans (Nat.le_succ _), fun hge => ?_⟩
        rw [length_cons] at hge
        omega
    | ok v =>
      rw [hv] at h
      obtain ⟨rest, hrest, h⟩ := bind_eq_ok h
      cases h
      obtain ⟨hle, hall⟩ := ih hrest
      refine ⟨Nat.succ_le_succ hle, fun hge => Forall₂.cons hv (hall ?_)⟩
      exact Nat.le_of_succ_le_succ hge

/-- Responses of a block answer for declared models only, if any are declared. -/
def CapsCover (N : VirtualProcessor) (declaredCaps : List (List UInt8)) (txs : List Transaction) :
    Prop :=
  declaredCaps = [] ∨ ∀ tx ∈ txs, ∀ modelId, N.answeredModel txs tx = some modelId →
    modelId ∈ declaredCaps

theorem checkAiResponseModelCaps_eq_ok {coinbase : Transaction} :
    N.checkAiResponseModelCaps coinbase txs = .ok () ↔
      N.CapsCover (parseAiCaps coinbase.payload) txs := by
  rw [checkAiResponseModelCaps, CapsCover]
  cases hcaps : parseAiCaps coinbase.payload with
  | nil => exact iff_of_true rfl (.inl rfl)
  | cons cap caps =>
    simp only [isEmpty_cons, if_false, forM_eq_ok, reduceCtorEq, false_or]
    refine forall_congr' fun tx => imp_congr_right fun _ => ?_
    cases N.answeredModel txs tx with
    | none => exact iff_of_true rfl nofun
    | some modelId =>
      simp only [ite_error_eq_ok, not_not, and_true, Option.some.injEq, forall_eq']

/-- **The transaction rules of a block**, one by one. -/
theorem verifyTransactions_eq_ok {coinbase : Transaction} :
    N.verifyTransactions (coinbase :: txs) view daaScore = .ok () ↔
      (∀ tx ∈ txs, N.checkAdmissionGates tx daaScore = .ok ()) ∧
      (N.modelCapEnforcementActivation ≤ daaScore →
        N.CapsCover (parseAiCaps coinbase.payload) txs ∧ ∀ tx ∈ txs,
          PayloadRulesHold tx (N.aiRewardMinimums daaScore) (N.rewardRoutingActive daaScore)) ∧
      ∃ validated, List.Forall₂ (fun tx v =>
          N.validateTransactionInUtxoContext tx view daaScore .full = .ok v) txs validated ∧
        (N.modelCapEnforcementActivation ≤ daaScore → ∀ tx ∈ txs, ∀ req, request? tx = some req →
          ∀ fee, N.calculatedFeeOf validated (N.txId tx) = some fee → req.priorityFee ≤ fee) := by
  rw [verifyTransactions]
  simp only [↓bind_unit_eq_ok, bind_eq_ok_iff, orReject_eq_ok, forM_eq_ok, checkBlockGates_eq_ok,
    checkBeforeUtxo, ite_ok_eq_ok, checkAiResponseModelCaps_eq_ok, checkAiRequestPayloadRulesAll,
    mapError_eq_ok, checkAiRequestTxPayloadRules_eq_ok, ite_error_eq_ok, checkAfterUtxo,
    checkAiRequestInferenceRewards, checkAiRequestInferenceReward_eq_ok]
  refine and_congr_right fun _ => and_congr_right fun hpayload => ?_
  constructor
  · rintro ⟨validated, hrun, hcount, hfees⟩
    refine ⟨validated, (validateTransactionsInParallel_eq_ok hrun).2 (Nat.not_lt.mp hcount), ?_⟩
    exact fun hactive tx htx => (hfees hactive tx htx).2
  · rintro ⟨validated, hvalid, hfees⟩
    refine ⟨validated, validateTransactionsInParallel_of_valid hvalid, ?_, fun hactive tx htx => ?_⟩
    · rw [hvalid.length_eq]
      exact lt_irrefl _
    · exact ⟨(hpayload hactive).2 tx htx, hfees hactive tx htx⟩

/-! ### An admitted transaction -/

/-- The coins already found for a transaction are those of the view. -/
def AgreesWith (m : MutableTransaction) (view : UtxoView) : Prop :=
  List.Forall₂ (fun input entry => entry = none ∨ entry = view input.previousOutpoint)
    m.tx.inputs m.entries

/-- The entries the mempool works with are then all those of the view. -/
theorem populateMempoolEntries_of_agrees (h : AgreesWith m view) :
    populateMempoolEntries view m = m.tx.inputs.map fun input => view input.previousOutpoint := by
  rw [populateMempoolEntries]
  rw [AgreesWith] at h
  generalize m.tx.inputs = inputs at h ⊢
  generalize m.entries = entries at h ⊢
  induction h with
  | nil => rfl
  | cons hentry _ ih =>
    rw [zipWith_cons_cons, map_cons, ih]
    rcases hentry with rfl | rfl
    · rfl
    · cases view _ <;> rfl

/-- The coins of a transaction, found in a view one by one. -/
def CoinsIn (view : UtxoView) (tx : Transaction) (entries : List UtxoEntry) : Prop :=
  List.Forall₂ (fun input e => view input.previousOutpoint = some e) tx.inputs entries

/-- A transaction of a block finds the same coins, up to their age. -/
theorem populateInputs_of_coinsIn (h : CoinsIn view tx entries) :
    ∃ entries', populateInputs view tx = some entries' ∧
      entries'.map forgetAge = entries.map forgetAge := by
  rw [CoinsIn] at h
  rw [populateInputs]
  generalize tx.inputs = inputs at h ⊢
  induction h with
  | nil => exact ⟨[], rfl, rfl⟩
  | @cons input e inputs entries hview _ ih =>
    obtain ⟨entries', hentries, hsame⟩ := ih
    have hcoin : ∃ e', UtxoRules.populateInput view input.previousOutpoint = some e' ∧
        forgetAge e' = forgetAge e := by
      rw [UtxoRules.populateInput, hview]
      refine ⟨_, rfl, ?_⟩
      split <;> rfl
    obtain ⟨e', he', hforget⟩ := hcoin
    refine ⟨e' :: entries', ?_, by rw [map_cons, map_cons, hforget, hsame]⟩
    rw [mapM_cons, he', hentries]
    rfl

/-- What the coins of a transaction are worth in a view. -/
def viewAmount (view : UtxoView) (tx : Transaction) : ℕ :=
  (tx.inputs.map fun input => ((view input.previousOutpoint).map UtxoEntry.amount).getD 0).sum

/-- The coins found for a block are worth what they are in the view. -/
theorem viewAmount_populateInputs (h : populateInputs view tx = some entries) :
    viewAmount view tx = (entries.map UtxoEntry.amount).sum := by
  rw [populateInputs, mapM_eq_some] at h
  rw [viewAmount]
  generalize tx.inputs = inputs at h ⊢
  induction h with
  | nil => rfl
  | cons hentry _ ih =>
    obtain ⟨e, he, rfl⟩ := Option.map_eq_some_iff.mp hentry
    rw [map_cons, sum_cons, ih, he, map_cons]
    split <;> rfl

/-- A validated transaction is the one given, and its fee is what its coins are worth less what
its outputs are. -/
theorem validateTransaction_fee {flags : TxValidationFlags} {v : ValidatedTransaction}
    (h : N.validateTransactionInUtxoContext tx view daaScore flags = .ok v) :
    v.tx = tx ∧ v.calculatedFee = viewAmount view v.tx - totalValue v.tx.outputs := by
  rw [validateTransactionInUtxoContext, bind_unit_eq_ok] at h
  obtain ⟨-, h⟩ := h
  cases hentries : populateInputs view tx with
  | none => rw [hentries] at h; cases h
  | some entries =>
    rw [hentries] at h
    obtain ⟨fee, hfee, h⟩ := bind_eq_ok h
    cases h
    refine ⟨rfl, ?_⟩
    rw [viewAmount_populateInputs hentries]
    exact TransactionValidator.fee_eq hfee

/-- What admission finds out: the coins of all inputs, none of them burned, the computed mass, and
that the rules of populated transactions are passed with it. -/
theorem validateMempool_eq_ok
    (h : N.validateMempoolTransactionInUtxoContext m view daaScore args = .ok m') :
    ∃ entries storageMass threshold fee, m'.tx = { m.tx with mass := storageMass } ∧
      (populateMempoolEntries view m).mapM id = some entries ∧
      N.checkBurned m.tx daaScore = .ok () ∧
      N.transactionValidator.calcContextualMasses m.tx entries = some (some storageMass) ∧
      N.transactionValidator.validatePopulatedTransactionAndGetFee m'.tx entries daaScore
        .skipMassCheck threshold = .ok fee := by
  rw [validateMempoolTransactionInUtxoContext] at h
  split at h
  · cases h
  · next entries hentries =>
    obtain ⟨hburned, h⟩ := bind_unit_eq_ok.mp h
    obtain ⟨masses, hmasses, h⟩ := bind_eq_ok h
    cases masses with
    | none => cases h
    | some storageMass =>
      obtain ⟨threshold, -, h⟩ := bind_eq_ok h
      obtain ⟨fee, hfee, h⟩ := bind_eq_ok h
      cases h
      exact ⟨entries, storageMass, threshold, fee, rfl, hentries, hburned,
        orPanic_eq_ok.mp hmasses, hfee⟩

/-- The rules admission applies before it looks for coins. -/
theorem validateMempoolImpl_eq_ok {pastMedianTime : ℕ}
    (h : N.validateMempoolTransactionImpl m view daaScore pastMedianTime args = .ok m') :
    N.checkAdmissionGates m.tx daaScore = .ok () ∧
      (N.modelCapEnforcementActivation ≤ daaScore →
        PayloadRulesHold m.tx (N.aiRewardMinimums daaScore) (N.rewardRoutingActive daaScore)) ∧
      N.validateMempoolTransactionInUtxoContext m view daaScore args = .ok m' := by
  simp only [validateMempoolTransactionImpl, bind_unit_eq_ok, orReject_eq_ok] at h
  obtain ⟨-, -, hpayload, hgates, hcontext⟩ := h
  rw [checkAdmissionPayload, ite_ok_eq_ok, mapError_eq_ok, checkAiRequestTxPayloadRules_eq_ok]
    at hpayload
  exact ⟨hgates, hpayload, hcontext⟩

/-- An admitted transaction is valid in a block over the same view. -/
theorem validateTransaction_of_admitted (hagrees : AgreesWith m view)
    (h : N.validateMempoolTransactionInUtxoContext m view daaScore args = .ok m') :
    ∃ v, N.validateTransactionInUtxoContext m'.tx view daaScore .full = .ok v := by
  obtain ⟨entries, storageMass, threshold, fee, htx, hentries, hburned, hmass, hfee⟩ :=
    validateMempool_eq_ok h
  rw [htx] at hfee ⊢
  have hfull := TransactionValidator.validatePopulated_full hfee hmass
  rw [populateMempoolEntries_of_agrees hagrees, mapM_eq_some, forall₂_map_left_iff] at hentries
  have hcoins : CoinsIn view { m.tx with mass := storageMass } entries := hentries
  obtain ⟨entries', hentries, hsame⟩ := populateInputs_of_coinsIn hcoins
  have hfull' : N.transactionValidator.validatePopulatedTransactionAndGetFee
      { m.tx with mass := storageMass } entries' daaScore .full none = .ok fee := by
    rw [← TransactionValidator.validatePopulated_forgetAge, hsame,
      TransactionValidator.validatePopulated_forgetAge]
    exact hfull
  refine ⟨⟨{ m.tx with mass := storageMass }, entries', fee⟩, ?_⟩
  rw [validateTransactionInUtxoContext, bind_unit_eq_ok]
  refine ⟨hburned, ?_⟩
  rw [hentries]
  dsimp only
  rw [hfull']
  rfl

/-- The fee of a request covers the priority fee it promises, once that is enforced. -/
def FeeCovered (N : VirtualProcessor) (view : UtxoView) (daaScore : ℕ) (tx : Transaction) : Prop :=
  N.modelCapEnforcementActivation ≤ daaScore → ∀ req, request? tx = some req →
    req.priorityFee ≤ viewAmount view tx - totalValue tx.outputs

/-- **An admitted transaction in a block of its own**: over the view it was admitted against and
behind a coinbase that declares no models, the block passes every transaction rule exactly if the
fee of a request covers its priority fee. -/
theorem verifyTransactions_admitted {m m' : MutableTransaction} {coinbase : Transaction}
    {pastMedianTime : ℕ} {args : TransactionValidationArgs} (hagrees : AgreesWith m view)
    (hadmitted : N.validateMempoolTransactionImpl m view daaScore pastMedianTime args = .ok m')
    (hcaps : parseAiCaps coinbase.payload = []) :
    N.verifyTransactions [coinbase, m'.tx] view daaScore = .ok () ↔
      N.FeeCovered view daaScore m.tx := by
  obtain ⟨hgates, hpayload, hcontext⟩ := validateMempoolImpl_eq_ok hadmitted
  obtain ⟨v, hv⟩ := validateTransaction_of_admitted hagrees hcontext
  obtain ⟨hvtx, hfee⟩ := validateTransaction_fee hv
  obtain ⟨_, storageMass, _, _, htx, -⟩ := validateMempool_eq_ok hcontext
  have hfound : N.calculatedFeeOf [v] (N.txId m'.tx)
      = some (viewAmount view m.tx - totalValue m.tx.outputs) := by
    rw [calculatedFeeOf, reverse_singleton, find?_cons_of_pos (by rw [hvtx]; simp),
      Option.map_some, hfee, hvtx, htx]
    rfl
  rw [verifyTransactions_eq_ok]
  simp only [mem_singleton, forall_eq]
  constructor
  · rintro ⟨-, -, validated, hvalidated, hcovers⟩ hactive req hreq
    obtain ⟨v', rest, hv', hrest, rfl⟩ := forall₂_cons_left_iff.mp hvalidated
    obtain rfl := forall₂_nil_left_iff.mp hrest
    obtain rfl := Except.ok.inj (hv.symm.trans hv')
    exact hcovers hactive req (by rw [htx]; exact hreq) _ hfound
  · intro hcovered
    refine ⟨by rw [htx]; exact hgates, fun hactive => ⟨.inl hcaps, ?_⟩, [v],
      Forall₂.cons hv Forall₂.nil, fun hactive req hreq fee hsome => ?_⟩
    · rw [htx]
      exact hpayload hactive
    rw [hfound] at hsome
    rw [htx] at hreq
    exact Option.some.inj hsome ▸ hcovered hactive req hreq

/-! ### A request that does not pay what it promises -/

/-- A view in which every outpoint holds the same coin. -/
def coinView : UtxoView := fun _ => some ⟨200000000, ⟨0, []⟩, 5, false, 5⟩

/-- A request for a model without a price that promises the least priority fee. The first output
takes `change` of its coin, the second one is the vault. -/
def vaultRequest (change : ℕ) : MutableTransaction where
  tx := { inputs := [{ previousOutpoint := ⟨1, 0⟩ }]
          outputs := [⟨change, ⟨0, []⟩⟩, ⟨100000000, ⟨0, inferenceVaultScript⟩⟩]
          subnetworkId := .aiRequest
          payload := AiRequestPayload.serialize
            ⟨List.replicate 32 1, 0, 0, minAiRequestPriorityFee, []⟩ }
  entries := [none]
  aligned := rfl

/-- A coinbase without free data. -/
def plainCoinbase : Transaction where
  subnetworkId := .coinbase
  payload := List.replicate 19 0

/-- The request is admitted with a fee of zero. -/
theorem vaultRequest_admitted :
    (openProcessor.validateMempoolTransactionImpl (vaultRequest 100000000) coinView 10 0 {}).map
        MutableTransaction.tx = .ok { (vaultRequest 100000000).tx with mass := 15000 } := by
  decide +kernel

/-- The request is admitted and refused by the block. -/
theorem vaultRequest_unpaid :
    (openProcessor.validateMempoolTransactionImpl (vaultRequest 100000000) coinView 10 0 {}).map
        MutableTransaction.tx = .ok { (vaultRequest 100000000).tx with mass := 15000 } ∧
      openProcessor.verifyTransactions
          [plainCoinbase, { (vaultRequest 100000000).tx with mass := 15000 }] coinView 10
        = .error (.rejected (.aiRequest (.feeBelowInferenceReward 0 0 30000000))) :=
  ⟨vaultRequest_admitted, by decide +kernel⟩

/-- The request is admitted when it leaves the fee it promises. -/
theorem paidRequest_admitted :
    (openProcessor.validateMempoolTransactionImpl (vaultRequest 70000000) coinView 10 0 {}).map
        MutableTransaction.tx = .ok { (vaultRequest 70000000).tx with mass := 19285 } := by
  decide +kernel

/-- Such a request pays its priority fee. -/
theorem paidRequest_feeCovered :
    openProcessor.FeeCovered coinView 10 (vaultRequest 70000000).tx := by
  intro _ req hreq
  have hpayload : request? (vaultRequest 70000000).tx
      = some ⟨replicate 32 1, 0, 0, minAiRequestPriorityFee, []⟩ := by decide +kernel
  obtain rfl := Option.mem_unique hpayload hreq
  decide

/-- The same request with its fee paid: it is admitted and its block passes. -/
theorem verifyTransactions_admitted_paid :
    ∃ m', openProcessor.validateMempoolTransactionImpl (vaultRequest 70000000) coinView 10 0 {}
        = .ok m' ∧
      openProcessor.verifyTransactions [plainCoinbase, m'.tx] coinView 10 = .ok () := by
  obtain ⟨m', hadmitted, -⟩ := map_eq_ok.mp paidRequest_admitted
  have hagrees : AgreesWith (vaultRequest 70000000) coinView :=
    Forall₂.cons (.inl rfl) Forall₂.nil
  exact ⟨m', hadmitted,
    (verifyTransactions_admitted hagrees hadmitted (by decide)).mpr paidRequest_feeCovered⟩

end VirtualProcessor

end Tx

end KeryxNode
