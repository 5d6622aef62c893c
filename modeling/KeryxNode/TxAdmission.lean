import KeryxNode.TxValidator

/-!
# Admission and Block Rules

The three places where transactions meet the rules of the inference protocol
(`consensus/src/pipeline/virtual_processor`): admission to the mempool, the validation of a
transaction against a view of the coins, and the transaction rules of a block. They share the
payload rules of requests; only the block compares the fee with the priority fee a request
promises.
-/

namespace KeryxNode

namespace Tx

open ByteCodec Checked

/-! ### Prices of models -/

def exaone4012bModelId : List UInt8 :=
  beBytes 32 0x300a99b3a85b0ab45d1d930bb7b1d4b0f35983d521e79ff21193a6908dc4b810

def mistral7bV03ModelId : List UInt8 :=
  beBytes 32 0x8c2fea600f0eefe7048741a5119cb7be303037f59fc026e48382658f23581e0a

def glm49b0414ModelId : List UInt8 :=
  beBytes 32 0xfa2f13be0850e26c5ce86c7ac79da85e300c1da8b3290f9a18d47105f1f2140a

def qwen3627bModelId : List UInt8 :=
  beBytes 32 0xb8bdc01fa407eab943e4fefc807483b39f8142785256049e1f559698a5284746

def kimiLinear48bModelId : List UInt8 :=
  beBytes 32 0x3dc09358ad75c6ef0c9c86ee4f47c4d6acda961fecbd0e4f9cf55e8f0fdffddb

def qwen359bAbliteratedModelId : List UInt8 :=
  beBytes 32 0xbd34568cd89f5f19c6c3a6e1a61b929bc868709409eaad8e672d85f3c1eb5710

def gemma412bAbliteratedModelId : List UInt8 :=
  beBytes 32 0x399984045600f7d58d1b2cf01e6a4bf466fa15c7ac31bd0dd1a71e003b617cc6

/-- The least rewards of the fourth fork. -/
def inferenceRewardMinimumsV2H4 : List (List UInt8 × ℕ) :=
  [(exaone4012bModelId, 50000000), (mistral7bV03ModelId, 100000000),
    (glm49b0414ModelId, 150000000), (qwen3627bModelId, 250000000),
    (kimiLinear48bModelId, 400000000)]

/-- The least rewards of the sixth fork. -/
def inferenceRewardMinimumsV2H6 : List (List UInt8 × ℕ) :=
  [(qwen359bAbliteratedModelId, 100000000), (glm49b0414ModelId, 150000000),
    (gemma412bAbliteratedModelId, 200000000), (qwen3627bModelId, 250000000),
    (kimiLinear48bModelId, 400000000)]

/-! ### The processor -/

/-- What the transaction rules read of the virtual processor. The digests of a transaction and of
a payload are arbitrary functions. -/
structure VirtualProcessor where
  transactionValidator : TransactionValidator
  txId : Transaction → Hash
  blake2b : List UInt8 → List UInt8
  /-- The burned escrow claims with the score of the burn. -/
  serviceBurned : TransactionOutpoint → Option ℕ
  finalityDepth : ℕ
  modelCapEnforcementActivation : ℕ
  pomV3Activation : ℕ
  rewardRoutingActivation : ℕ
  coinAgeActivation : ℕ
  inferenceMinH2Activation : ℕ
  opoiV2Activation : ℕ
  inferenceRewardMinimums : List (List UInt8 × ℕ)
  inferenceRewardMinimumsV2 : List (List UInt8 × ℕ)
  inferenceRewardMinimumsV2H2 : List (List UInt8 × ℕ)

/-- Why the transactions of a block are refused. -/
inductive BlockRuleError where
  | aiResponseV2BeforeActivation (id : Hash)
  | aiRequestMaxTokensExceeded (id : Hash) (maxTokens cap : ℕ)
  | aiResponseModelCapMissing (id : Hash) (modelId : List UInt8)
  | aiRequest (e : AiRequestError)
  | invalidTransactionsInUtxoContext (invalid total : ℕ)
  deriving DecidableEq

/-- A transaction with its coins and its fee. -/
structure ValidatedTransaction where
  tx : Transaction
  entries : List UtxoEntry
  calculatedFee : ℕ

/-- A transaction on its way into the mempool, with one place for the coin of each input. -/
structure MutableTransaction where
  tx : Transaction
  entries : List (Option UtxoEntry)
  calculatedFee : Option ℕ := none
  /-- Compute and transient mass. -/
  calculatedNonContextualMasses : Option (ℕ × ℕ) := none
  aligned : entries.length = tx.inputs.length

/-- The arguments of an admission: the fee rate to beat, as a test on fee and mass. -/
structure TransactionValidationArgs where
  feerateThreshold : Option (ℕ → ℕ → Bool) := none

/-- A script that pays to a key after a relative lock of up to eight bytes. -/
def isCsvPayToPubkey (script : List UInt8) : Bool :=
  let seqLen := (script.getD 0 0).toNat
  decide (37 ≤ script.length ∧ script.length ≤ 44 ∧ seqLen ≠ 0 ∧ seqLen ≤ 8 ∧
    script.length = seqLen + 36 ∧ script.getD (seqLen + 1) 0 = 0xb1 ∧
    script.getD (seqLen + 2) 0 = 0x20 ∧ script.getD (script.length - 1) 0 = 0xac)

namespace VirtualProcessor

variable (N : VirtualProcessor)

/-- The table of least rewards in force. -/
def aiRewardMinimums (daaScore : ℕ) : List (List UInt8 × ℕ) :=
  if N.pomV3Activation ≤ daaScore then inferenceRewardMinimumsV2H6
  else if N.coinAgeActivation ≤ daaScore then inferenceRewardMinimumsV2H4
  else if N.inferenceMinH2Activation ≤ daaScore then N.inferenceRewardMinimumsV2H2
  else if N.opoiV2Activation ≤ daaScore then N.inferenceRewardMinimumsV2
  else N.inferenceRewardMinimums

def rewardRoutingActive (daaScore : ℕ) : Bool :=
  decide (N.rewardRoutingActivation ≤ daaScore)

/-! ### Rules of requests -/

/-- The least reward of a request, if its model has a price. -/
def effectiveMinimum (req : AiRequestPayload) (minimums : List (List UInt8 × ℕ)) : Option ℕ :=
  (minimums.find? fun p => decide (p.1 = req.modelId)).map fun p =>
    p.2 + (req.maxTokens + 63) / 64 * inferenceRewardTokenStep

/-- The least reward and the least priority fee. -/
def checkAiRequestPayloadRules (tx : Transaction) (req : AiRequestPayload)
    (minimums : List (List UInt8 × ℕ)) : Except AiRequestError Unit :=
  match effectiveMinimum req minimums with
  | some effectiveMin =>
    if req.inferenceReward < effectiveMin then
      .error (.inferenceRewardBelowMinimum (N.txId tx) req.inferenceReward effectiveMin
        req.modelId)
    else checkPriorityFee tx req
  | none => checkPriorityFee tx req
where
  checkPriorityFee (tx : Transaction) (req : AiRequestPayload) : Except AiRequestError Unit :=
    if req.priorityFee < minAiRequestPriorityFee then
      .error (.priorityFeeBelowMinimum (N.txId tx) req.priorityFee minAiRequestPriorityFee)
    else .ok ()

/-- The script the escrow output must have. -/
def isEscrowScript (spk : ScriptPublicKey) (routed : Bool) : Bool :=
  if routed then decide (spk.version = 0 ∧ spk.script = inferenceVaultScript)
  else isCsvPayToPubkey spk.script

/-- The second output locks the reward. -/
def checkAiRequestEscrowOutput (tx : Transaction) (req : AiRequestPayload) (routed : Bool) :
    Except AiRequestError Unit :=
  match tx.outputs with
  | _ :: escrowOut :: _ =>
    if !isEscrowScript escrowOut.scriptPublicKey routed then
      .error (.invalidEscrowScript (N.txId tx))
    else if escrowOut.value < req.inferenceReward then
      .error (.escrowBelowInferenceReward (N.txId tx) escrowOut.value req.inferenceReward)
    else .ok ()
  | _ => .error (.missingEscrowOutput (N.txId tx))

/-- The request a transaction carries. -/
def request? (tx : Transaction) : Option AiRequestPayload :=
  if tx.isAiRequest then AiRequestPayload.deserialize tx.payload else none

/-- The rules of a request that need nothing but the transaction. -/
def checkAiRequestTxPayloadRules (tx : Transaction) (minimums : List (List UInt8 × ℕ))
    (routed : Bool) : Except AiRequestError Unit :=
  match request? tx with
  | none => .ok ()
  | some req => do
    N.checkAiRequestPayloadRules tx req minimums
    N.checkAiRequestEscrowOutput tx req routed

/-! ### Validation against a view -/

/-- The outpoints whose burn is final. -/
def burnedOutpoints (outpoints : List TransactionOutpoint) (povDaaScore : ℕ) :
    List TransactionOutpoint :=
  outpoints.filter fun o => (N.serviceBurned o).any fun burnDaa =>
    decide (min (burnDaa + N.finalityDepth) (2 ^ 64 - 1) < povDaaScore)

def checkBurned (tx : Transaction) (povDaaScore : ℕ) : Except (Stop TxRuleError) Unit :=
  match N.burnedOutpoints (tx.inputs.map TransactionInput.previousOutpoint) povDaaScore with
  | [] => .ok ()
  | o :: os => .error (.rejected (.spendOfBurnedEscrow (o :: os)))

/-- The coins of a transaction in a view, with their committed anchors. -/
def populateInputs (view : UtxoView) (tx : Transaction) : Option (List UtxoEntry) :=
  tx.inputs.mapM fun input => UtxoRules.populateInput view input.previousOutpoint

/-- A transaction of a block against a view. -/
def validateTransactionInUtxoContext (tx : Transaction) (view : UtxoView) (povDaaScore : ℕ)
    (flags : TxValidationFlags) : Except (Stop TxRuleError) ValidatedTransaction := do
  N.checkBurned tx povDaaScore
  match populateInputs view tx with
  | none => .error (.rejected .missingTxOutpoints)
  | some entries => do
    let calculatedFee ← N.transactionValidator.validatePopulatedTransactionAndGetFee tx entries
      povDaaScore flags none
    return { tx, entries, calculatedFee }

/-- The coins of a transaction for the mempool: those already there are preferred. -/
def populateMempoolEntries (view : UtxoView) (m : MutableTransaction) : List (Option UtxoEntry) :=
  List.zipWith (fun input entry => entry <|> view input.previousOutpoint) m.tx.inputs m.entries

/-- The mass a fee rate is measured by, with the rate to beat. -/
def feerateArgs (m : MutableTransaction) (storageMass : ℕ) (args : TransactionValidationArgs) :
    Except (Stop TxRuleError) (Option (ℕ × (ℕ → ℕ → Bool))) :=
  match args.feerateThreshold with
  | none => .ok none
  | some threshold => do
    let (compute, transient) ← orPanic m.calculatedNonContextualMasses
    .ok (some (max storageMass (max compute transient), threshold))

/-- A transaction against the view of the virtual state: its coins are found, its storage mass is
set and the rules of populated transactions are applied. -/
def validateMempoolTransactionInUtxoContext (m : MutableTransaction) (view : UtxoView)
    (povDaaScore : ℕ) (args : TransactionValidationArgs) :
    Except (Stop TxRuleError) MutableTransaction :=
  match hentries : (populateMempoolEntries view m).mapM id with
  | none => .error (.rejected .missingTxOutpoints)
  | some entries => do
    N.checkBurned m.tx povDaaScore
    match ← orPanic (N.transactionValidator.calcContextualMasses m.tx entries) with
    | none => .error (.rejected .massIncomputable)
    | some storageMass => do
      let tx := { m.tx with mass := storageMass }
      let threshold ← feerateArgs m storageMass args
      let fee ← N.transactionValidator.validatePopulatedTransactionAndGetFee tx entries
        povDaaScore .skipMassCheck threshold
      return {
        tx
        entries := entries.map some
        calculatedFee := some fee
        calculatedNonContextualMasses := m.calculatedNonContextualMasses
        aligned := by
          have hlength := (mapM_eq_some.mp hentries).length_eq
          rw [populateMempoolEntries, List.length_zipWith, m.aligned, Nat.min_self] at hlength
          rw [List.length_map, ← hlength] }

/-! ### Admission -/

/-- The gate of signed responses and the cap on tokens, for one transaction. -/
def checkAdmissionGates (tx : Transaction) (daaScore : ℕ) : Except TxRuleError Unit :=
  if daaScore < N.pomV3Activation then
    if tx.isAiResponse && decide (tx.payload.length ≠ aiResponsePayloadLen) then
      .error (.aiPayloadTooLong tx.payload.length aiResponsePayloadLen)
    else .ok ()
  else
    match request? tx with
    | none => .ok ()
    | some req =>
      if aiRequestMaxTokensCap < req.maxTokens then
        .error (.aiRequestPayloadRule (.maxTokens req.maxTokens aiRequestMaxTokensCap))
      else .ok ()

/-- The payload rules of requests, once enforced. -/
def checkAdmissionPayload (tx : Transaction) (daaScore : ℕ) : Except TxRuleError Unit :=
  if N.modelCapEnforcementActivation ≤ daaScore then
    (N.checkAiRequestTxPayloadRules tx (N.aiRewardMinimums daaScore)
      (N.rewardRoutingActive daaScore)).mapError fun e => .aiRequestPayloadRule (.blockRule e)
  else .ok ()

/-- Admission to the mempool at the virtual score. -/
def validateMempoolTransactionImpl (m : MutableTransaction) (view : UtxoView)
    (daaScore pastMedianTime : ℕ) (args : TransactionValidationArgs) :
    Except (Stop TxRuleError) MutableTransaction := do
  orReject (N.transactionValidator.validateTxInIsolation m.tx)
  orReject (TransactionValidator.validateTxInHeaderContextWithArgs m.tx daaScore pastMedianTime)
  orReject (N.checkAdmissionPayload m.tx daaScore)
  orReject (N.checkAdmissionGates m.tx daaScore)
  N.validateMempoolTransactionInUtxoContext m view daaScore args

/-! ### Rules of a block -/

/-- The gate of signed responses and the cap on tokens, for a transaction of a block. -/
def checkBlockGates (daaScore : ℕ) (tx : Transaction) : Except BlockRuleError Unit :=
  if daaScore < N.pomV3Activation then
    if tx.isAiResponse && decide (tx.payload.length ≠ aiResponsePayloadLen) then
      .error (.aiResponseV2BeforeActivation (N.txId tx))
    else .ok ()
  else
    match request? tx with
    | none => .ok ()
    | some req =>
      if aiRequestMaxTokensCap < req.maxTokens then
        .error (.aiRequestMaxTokensExceeded (N.txId tx) req.maxTokens aiRequestMaxTokensCap)
      else .ok ()

/-- The models requested in a block, by the digest of the request. -/
def requestModels (txs : List Transaction) : List (List UInt8 × List UInt8) :=
  txs.filterMap fun tx => (request? tx).map fun req => (N.blake2b tx.payload, req.modelId)

/-- The model of a request in a block; a later request with the same digest replaces an
earlier one. -/
def requestModel (txs : List Transaction) (requestHash : List UInt8) : Option (List UInt8) :=
  ((N.requestModels txs).reverse.find? fun p => decide (p.1 = requestHash)).map Prod.snd

/-- The model a response of a block answers for, if the request is in the same block. -/
def answeredModel (txs : List Transaction) (tx : Transaction) : Option (List UInt8) :=
  if tx.isAiResponse then
    (AiResponsePayload.deserialize tx.payload).bind fun resp => N.requestModel txs resp.requestHash
  else none

/-- A response only answers for declared models, if any are declared. -/
def checkAiResponseModelCaps (coinbase : Transaction) (txs : List Transaction) :
    Except BlockRuleError Unit :=
  let declaredCaps := parseAiCaps coinbase.payload
  if declaredCaps.isEmpty then .ok ()
  else txs.forM fun tx =>
    match N.answeredModel txs tx with
    | none => .ok ()
    | some modelId =>
      if modelId ∉ declaredCaps then .error (.aiResponseModelCapMissing (N.txId tx) modelId)
      else .ok ()

def checkAiRequestPayloadRulesAll (txs : List Transaction) (minimums : List (List UInt8 × ℕ))
    (routed : Bool) : Except BlockRuleError Unit :=
  txs.forM fun tx => (N.checkAiRequestTxPayloadRules tx minimums routed).mapError .aiRequest

/-- The valid transactions of a block. -/
def validateTransactionsInParallel (view : UtxoView) (povDaaScore : ℕ)
    (flags : TxValidationFlags) :
    List Transaction → Except (Stop BlockRuleError) (List ValidatedTransaction)
  | [] => .ok []
  | tx :: txs =>
    match N.validateTransactionInUtxoContext tx view povDaaScore flags with
    | .error .panicked => .error .panicked
    | .error (.rejected _) => validateTransactionsInParallel view povDaaScore flags txs
    | .ok validated => do
      let rest ← validateTransactionsInParallel view povDaaScore flags txs
      return validated :: rest

/-- The fee found for an identifier; a later transaction replaces an earlier one. -/
def calculatedFeeOf (validated : List ValidatedTransaction) (id : Hash) : Option ℕ :=
  (validated.reverse.find? fun v => decide (N.txId v.tx = id)).map
    ValidatedTransaction.calculatedFee

/-- The fee covers the priority fee, if the transaction has one. -/
def checkFeeCoversPriority (validated : List ValidatedTransaction) (tx : Transaction)
    (req : AiRequestPayload) : Except AiRequestError Unit :=
  match N.calculatedFeeOf validated (N.txId tx) with
  | none => .ok ()
  | some fee =>
    if fee < req.priorityFee then
      .error (.feeBelowInferenceReward (N.txId tx) fee req.priorityFee)
    else .ok ()

/-- All rules of one request: the payload rules, with the fee compared in between. -/
def checkAiRequestInferenceReward (validated : List ValidatedTransaction)
    (minimums : List (List UInt8 × ℕ)) (routed : Bool) (tx : Transaction) :
    Except AiRequestError Unit :=
  match request? tx with
  | none => .ok ()
  | some req => do
    N.checkAiRequestPayloadRules tx req minimums
    N.checkFeeCoversPriority validated tx req
    N.checkAiRequestEscrowOutput tx req routed

def checkAiRequestInferenceRewards (txs : List Transaction) (validated : List ValidatedTransaction)
    (minimums : List (List UInt8 × ℕ)) (routed : Bool) : Except BlockRuleError Unit :=
  txs.forM fun tx =>
    (N.checkAiRequestInferenceReward validated minimums routed tx).mapError .aiRequest

/-- The caps and the payload rules, once enforced. -/
def checkBeforeUtxo (coinbase : Transaction) (txs : List Transaction) (daaScore : ℕ) :
    Except BlockRuleError Unit :=
  if N.modelCapEnforcementActivation ≤ daaScore then do
    N.checkAiResponseModelCaps coinbase txs
    N.checkAiRequestPayloadRulesAll txs (N.aiRewardMinimums daaScore)
      (N.rewardRoutingActive daaScore)
  else .ok ()

/-- The rewards of requests, once enforced. -/
def checkAfterUtxo (txs : List Transaction) (validated : List ValidatedTransaction)
    (daaScore : ℕ) : Except BlockRuleError Unit :=
  if N.modelCapEnforcementActivation ≤ daaScore then
    N.checkAiRequestInferenceRewards txs validated (N.aiRewardMinimums daaScore)
      (N.rewardRoutingActive daaScore)
  else .ok ()

/-- The transaction rules `verify_expected_utxo_state` applies to the transactions of a block,
the coinbase first. -/
def verifyTransactions (txs : List Transaction) (view : UtxoView) (daaScore : ℕ) :
    Except (Stop BlockRuleError) Unit :=
  match txs with
  | [] => .error .panicked
  | coinbase :: rest => do
    orReject (rest.forM (N.checkBlockGates daaScore))
    orReject (N.checkBeforeUtxo coinbase rest daaScore)
    let validated ← N.validateTransactionsInParallel view daaScore .full rest
    if validated.length < rest.length then
      .error (.rejected (.invalidTransactionsInUtxoContext (rest.length - validated.length)
        rest.length))
    else orReject (N.checkAfterUtxo rest validated daaScore)

end VirtualProcessor

end Tx

end KeryxNode
