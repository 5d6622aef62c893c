import KeryxNode.AiPayload
import KeryxNode.Coinbase
import KeryxNode.ErrorChain
import KeryxNode.StorageMass

/-!
# Transaction Rules

The rules a single transaction is held to (`consensus/src/processes/transaction_validator`): those
that need nothing else, those that need the time of its block, and those that need the coins it
spends. The script engine is a parameter, an arbitrary verdict on the transaction and the amounts
and scripts of its coins. Overflows stop the program where the source adds without a check.
-/

namespace KeryxNode

namespace Tx

open Checked

/-! ### Errors -/

/-- Why a request is refused, with the identifier of its transaction. -/
inductive AiRequestError where
  | inferenceRewardBelowMinimum (id : Hash) (reward minimum : ℕ) (modelId : List UInt8)
  | priorityFeeBelowMinimum (id : Hash) (fee minimum : ℕ)
  | missingEscrowOutput (id : Hash)
  | invalidEscrowScript (id : Hash)
  | escrowBelowInferenceReward (id : Hash) (value reward : ℕ)
  | feeBelowInferenceReward (id : Hash) (fee priorityFee : ℕ)
  deriving DecidableEq

/-- The text of a refusal at admission: that of the block rule, or that of the token cap. -/
inductive AiRequestReason where
  | blockRule (e : AiRequestError)
  | maxTokens (maxTokens cap : ℕ)
  deriving DecidableEq

/-- Why a transaction is refused. Script errors do not carry the engine's own error. -/
inductive TxRuleError where
  | noTxInputs
  | txDuplicateInputs
  | txHasGas
  | unknownTxVersion (version : ℕ)
  | tooManyInputs (count max : ℕ)
  | tooManyOutputs (count max : ℕ)
  | tooBigSignatureScript (index max : ℕ)
  | tooBigScriptPublicKey (index max : ℕ)
  | notFinalized (index : ℕ)
  | coinbaseHasInputs (count : ℕ)
  | coinbaseTooManyOutputs (count limit : ℕ)
  | coinbaseScriptPublicKeyTooLong (index : ℕ)
  | coinbaseNonZeroMassCommitment
  | immatureCoinbaseSpend (index : ℕ) (outpoint : TransactionOutpoint)
      (blockDaaScore povDaaScore maturity : ℕ)
  | spkRuleViolation (index : ℕ) (outpoint : TransactionOutpoint)
  | inputAmountOverflow
  | inputAmountTooHigh
  | txOutZero (index : ℕ)
  | txOutTooHigh (index : ℕ)
  | outputsValueOverflow
  | totalTxOutTooHigh
  | spendTooHigh (totalOut totalIn : ℕ)
  | sequenceLockConditionsAreNotMet
  | missingTxOutpoints
  | spendOfBurnedEscrow (outpoints : List TransactionOutpoint)
  | signatureInvalid
  | signatureEmpty
  | massIncomputable
  | wrongMass (calculated committed : ℕ)
  | subnetworksDisabled (id : SubnetworkId)
  | aiPayloadTooShort (length min : ℕ)
  | aiPayloadTooLong (length max : ℕ)
  | aiResponseNullRequestHash
  | aiChallengeNullResponseHash
  | aiChallengeDepositInsufficientInputs (deposit totalIn : ℕ)
  | aiChallengeDepositMissingBurnOutput (deposit : ℕ)
  | aiRequestPayloadRule (reason : AiRequestReason)
  | feerateTooLow
  deriving DecidableEq

/-! ### Constants -/

/-- Lock times below are scores, those from here on times. -/
def lockTimeThreshold : ℕ := 500000000000

def sequenceLockTimeMask : ℕ := 0xffffffff

/-- The bit that disables the relative lock of an input. -/
def sequenceLockTimeDisabled : ℕ := 2 ^ 63

/-- A payment to a public key. -/
def p2pkScript (key : ℕ) : List UInt8 :=
  0x20 :: ByteCodec.beBytes 32 key ++ [0xac]

def spkRuleActivationDaa : ℕ := 54766000

def spkRuleActivationDaaH5 : ℕ := 59009037

/-- Scripts whose coins cannot be spent from the fourth fork on. -/
def spkRuleScripts : List (List UInt8) :=
  [p2pkScript 0x6bd6c0dbf93e5454b517daa6194bd98f91424cd5fbac82f71fb7fd8193ea4ae3]

/-- Scripts whose coins cannot be spent from the fifth fork on. -/
def spkRuleScriptsH5 : List (List UInt8) :=
  [p2pkScript 0xc9bedcd16e7f98f64c465465dd6438157afa97ac446ea8d600aec792dc845ee1,
    p2pkScript 0x2f0e826a6077a45607ef6df29bb8bb72899895b8b27ac149a007800b8e466f53,
    p2pkScript 0xcbd1a18c3ff7d5003d5197963a52396c04793672c844c63779ed059a1e0e4280,
    p2pkScript 0x166bd1f963f064af393d93c89b4fe25323893e891f25bb8a9f56ccfd3ca879b4]

def spkRuleActive (daaScore : ℕ) : Bool :=
  decide (spkRuleActivationDaa ≤ daaScore ∨ spkRuleActivationDaaH5 ≤ daaScore)

def spkRuleMatches (script : List UInt8) (daaScore : ℕ) : Bool :=
  decide (spkRuleActivationDaa ≤ daaScore ∧ script ∈ spkRuleScripts ∨
    spkRuleActivationDaaH5 ≤ daaScore ∧ script ∈ spkRuleScriptsH5)

/-- The plurality of the longest script of a length. -/
def maxPlurality (maxScriptPublicKeyLen : ℕ) : ℕ :=
  (63 + maxScriptPublicKeyLen + 99) / 100

/-- The parameters of validation. The fields at the end are what the limits are chosen for: the
terms of the mass formula fit a word. -/
structure TransactionValidator where
  maxTxInputs : ℕ
  maxTxOutputs : ℕ
  maxSignatureScriptLen : ℕ
  maxScriptPublicKeyLen : ℕ
  coinbasePayloadScriptPublicKeyMaxLen : ℕ
  coinbaseMaturity : ℕ
  ghostdagK : ℕ
  storageMassParameter : ℕ
  burnScriptPublicKey : ScriptPublicKey
  /-- The engine's verdict on an input, by its index. -/
  scriptPasses : Transaction → List (ℕ × ScriptPublicKey) → ℕ → Bool
  product_fits : storageMassParameter * maxPlurality maxScriptPublicKeyLen *
    maxPlurality maxScriptPublicKeyLen < 2 ^ 64
  inputs_fit : maxTxInputs * maxPlurality maxScriptPublicKeyLen < 2 ^ 64
  outputs_fit : maxTxOutputs * maxPlurality maxScriptPublicKeyLen < 2 ^ 64

namespace TransactionValidator

variable (V : TransactionValidator)

/-! ### In isolation -/

def checkTransactionInputsCount (tx : Transaction) : Except TxRuleError Unit :=
  if !tx.isCoinbase && !tx.isAiResponse && !tx.isAiChallenge && tx.inputs.isEmpty then
    .error .noTxInputs
  else if V.maxTxInputs < tx.inputs.length then
    .error (.tooManyInputs tx.inputs.length V.maxTxInputs)
  else .ok ()

def checkTransactionSignatureScripts (tx : Transaction) : Except TxRuleError Unit :=
  match tx.inputs.findIdx? fun i => decide (V.maxSignatureScriptLen < i.signatureScript.length) with
  | some i => .error (.tooBigSignatureScript i V.maxSignatureScriptLen)
  | none => .ok ()

/-- The error names the limit of the inputs, as the source does. -/
def checkTransactionOutputsCount (tx : Transaction) : Except TxRuleError Unit :=
  if tx.isCoinbase then .ok ()
  else if V.maxTxOutputs < tx.outputs.length then
    .error (.tooManyOutputs tx.outputs.length V.maxTxInputs)
  else .ok ()

def checkTransactionScriptPublicKeys (tx : Transaction) : Except TxRuleError Unit :=
  match tx.outputs.findIdx? fun o =>
      decide (V.maxScriptPublicKeyLen < o.scriptPublicKey.script.length) with
  | some i => .error (.tooBigScriptPublicKey i V.maxScriptPublicKeyLen)
  | none => .ok ()

def checkCoinbaseInIsolation (tx : Transaction) : Except TxRuleError Unit :=
  if !tx.isCoinbase then .ok ()
  else if !tx.inputs.isEmpty then .error (.coinbaseHasInputs tx.inputs.length)
  else if 0 < tx.mass then .error .coinbaseNonZeroMassCommitment
  else if coinbaseOutputsLimit V.ghostdagK true true < tx.outputs.length then
    .error (.coinbaseTooManyOutputs tx.outputs.length (coinbaseOutputsLimit V.ghostdagK true true))
  else
    match tx.outputs.findIdx? fun o =>
        decide (V.coinbasePayloadScriptPublicKeyMaxLen < o.scriptPublicKey.script.length) with
    | some i => .error (.coinbaseScriptPublicKeyTooLong i)
    | none => .ok ()

/-- Values from an index on, with the total before. -/
def checkOutputValueRanges : ℕ → ℕ → List TransactionOutput → Except TxRuleError Unit
  | _, _, [] => .ok ()
  | i, total, output :: outputs =>
    if output.value = 0 then .error (.txOutZero i)
    else if maxSompi < output.value then .error (.txOutTooHigh i)
    else
      match u64 (total + output.value) with
      | none => .error .outputsValueOverflow
      | some total =>
        if maxSompi < total then .error .totalTxOutTooHigh
        else checkOutputValueRanges (i + 1) total outputs

def checkTransactionOutputValueRanges (tx : Transaction) : Except TxRuleError Unit :=
  checkOutputValueRanges 0 0 tx.outputs

def checkDuplicateTransactionInputs (tx : Transaction) : Except TxRuleError Unit :=
  if (tx.inputs.map TransactionInput.previousOutpoint).Nodup then .ok ()
  else .error .txDuplicateInputs

def checkGas (tx : Transaction) : Except TxRuleError Unit :=
  if 0 < tx.gas then .error .txHasGas else .ok ()

def checkTransactionSubnetwork (tx : Transaction) : Except TxRuleError Unit :=
  if tx.isCoinbase || decide (tx.subnetworkId = .native) || tx.subnetworkId.isAi then .ok ()
  else .error (.subnetworksDisabled tx.subnetworkId)

/-- The lengths a payload may have, by kind. -/
def aiPayloadBounds (tx : Transaction) : Option (ℕ × ℕ) :=
  if tx.isAiRequest then some (minAiRequestPayloadLen, maxAiRequestPayloadLen)
  else if tx.isAiResponse then some (minAiResponsePayloadLen, maxAiResponsePayloadLen)
  else if tx.isAiChallenge then some (minAiChallengePayloadLen, maxAiChallengePayloadLen)
  else none

def checkAiPayloadLen (tx : Transaction) : Except TxRuleError Unit :=
  match aiPayloadBounds tx with
  | none => .ok ()
  | some (min, max) =>
    if tx.payload.length < min then .error (.aiPayloadTooShort tx.payload.length min)
    else if max < tx.payload.length then .error (.aiPayloadTooLong tx.payload.length max)
    else .ok ()

def checkAiResponseRequestHash (tx : Transaction) : Except TxRuleError Unit :=
  if !tx.isAiResponse then .ok ()
  else
    match AiResponsePayload.deserialize tx.payload with
    | none => .error (.aiPayloadTooShort tx.payload.length minAiResponsePayloadLen)
    | some r =>
      if r.requestHash = List.replicate 32 0 then .error .aiResponseNullRequestHash else .ok ()

def checkAiChallengeResponseHash (tx : Transaction) : Except TxRuleError Unit :=
  if !tx.isAiChallenge then .ok ()
  else
    match AiChallengePayload.deserialize tx.payload with
    | none => .error (.aiPayloadTooShort tx.payload.length minAiChallengePayloadLen)
    | some c =>
      if c.responseHash = List.replicate 32 0 then .error .aiChallengeNullResponseHash else .ok ()

def checkTransactionVersion (tx : Transaction) : Except TxRuleError Unit :=
  if tx.version ≠ txVersion then .error (.unknownTxVersion tx.version) else .ok ()

/-- The rules that need nothing but the transaction. -/
def validateTxInIsolation (tx : Transaction) : Except TxRuleError Unit := do
  V.checkTransactionInputsCount tx
  V.checkTransactionSignatureScripts tx
  V.checkTransactionOutputsCount tx
  V.checkTransactionScriptPublicKeys tx
  V.checkCoinbaseInIsolation tx
  checkTransactionOutputValueRanges tx
  checkDuplicateTransactionInputs tx
  checkGas tx
  checkTransactionSubnetwork tx
  checkAiPayloadLen tx
  checkAiResponseRequestHash tx
  checkAiChallengeResponseHash tx
  checkTransactionVersion tx

/-! ### In the context of a header -/

/-- What a lock time is compared with. -/
inductive LockTimeArg where
  | finalized
  | daaScore (score : ℕ)
  | medianTime (time : ℕ)

def lockTimeArg (tx : Transaction) (ctxDaaScore ctxBlockTime : ℕ) : LockTimeArg :=
  if tx.lockTime = 0 then .finalized
  else if tx.lockTime < lockTimeThreshold then .daaScore ctxDaaScore
  else .medianTime ctxBlockTime

def checkTxIsFinalized (tx : Transaction) (arg : LockTimeArg) : Except TxRuleError Unit :=
  match arg with
  | .finalized => .ok ()
  | .daaScore blockTimeOrDaaScore | .medianTime blockTimeOrDaaScore =>
    if tx.lockTime < blockTimeOrDaaScore then .ok ()
    else
      match tx.inputs.findIdx? fun i => decide (i.sequence ≠ 2 ^ 64 - 1) with
      | some i => .error (.notFinalized i)
      | none => .ok ()

def validateTxInHeaderContextWithArgs (tx : Transaction) (ctxDaaScore ctxBlockTime : ℕ) :
    Except TxRuleError Unit :=
  checkTxIsFinalized tx (lockTimeArg tx ctxDaaScore ctxBlockTime)

/-! ### In the context of the coins -/

/-- The result of a rule that may stop the program. -/
abbrev TxResult (α : Type) := Except (Stop TxRuleError) α

/-- Coinbase coins from an index on. -/
def checkCoinbaseMaturity (povDaaScore : ℕ) :
    ℕ → List (TransactionInput × UtxoEntry) → TxResult Unit
  | _, [] => .ok ()
  | i, (input, entry) :: rest =>
    if entry.isCoinbase then do
      let mature ← orPanic (u64 (entry.blockDaaScore + V.coinbaseMaturity))
      if povDaaScore < mature then
        .error (.rejected (.immatureCoinbaseSpend i input.previousOutpoint entry.blockDaaScore
          povDaaScore V.coinbaseMaturity))
      else checkCoinbaseMaturity povDaaScore (i + 1) rest
    else checkCoinbaseMaturity povDaaScore (i + 1) rest

/-- Coins whose script is on a list cannot be spent. -/
def checkSpkRuleInputs (povDaaScore : ℕ) (populated : List (TransactionInput × UtxoEntry)) :
    TxResult Unit :=
  if !spkRuleActive povDaaScore then .ok ()
  else
    match populated.zipIdx.find? fun p =>
        spkRuleMatches p.1.2.scriptPublicKey.script povDaaScore with
    | some ((input, _), i) => .error (.rejected (.spkRuleViolation i input.previousOutpoint))
    | none => .ok ()

/-- The sum of the amounts, with the total before. -/
def checkInputAmounts : ℕ → List UtxoEntry → TxResult ℕ
  | total, [] => .ok total
  | total, entry :: entries =>
    match u64 (total + entry.amount) with
    | none => .error (.rejected .inputAmountOverflow)
    | some total =>
      if maxSompi < total then .error (.rejected .inputAmountTooHigh)
      else checkInputAmounts total entries

/-- The deposit of a challenge is covered by the inputs and burned. -/
def checkAiChallengeDeposit (tx : Transaction) (totalIn : ℕ) : TxResult Unit :=
  if !tx.isAiChallenge then .ok ()
  else
    match AiChallengePayload.deserialize tx.payload with
    | none => .ok ()
    | some challenge =>
      let deposit := challenge.challengerDeposit
      if deposit = 0 then .ok ()
      else if totalIn < deposit then
        .error (.rejected (.aiChallengeDepositInsufficientInputs deposit totalIn))
      else if !tx.outputs.any fun o =>
          decide (o.scriptPublicKey = V.burnScriptPublicKey ∧ deposit ≤ o.value) then
        .error (.rejected (.aiChallengeDepositMissingBurnOutput deposit))
      else .ok ()

def checkTransactionOutputValues (tx : Transaction) (totalIn : ℕ) : TxResult ℕ := do
  let totalOut ← orPanic (u64 (totalValue tx.outputs))
  if totalIn < totalOut then .error (.rejected (.spendTooHigh totalOut totalIn))
  else .ok totalOut

/-- The storage mass of a transaction with its coins. -/
def calcContextualMasses (tx : Transaction) (entries : List UtxoEntry) : Option (Option ℕ) :=
  calcStorageMass tx.isCoinbase (entries.map UtxoCell.ofEntry) (tx.outputs.map UtxoCell.ofOutput)
    V.storageMassParameter

def checkMassCommitment (tx : Transaction) (entries : List UtxoEntry) : TxResult Unit := do
  match ← orPanic (V.calcContextualMasses tx entries) with
  | none => .error (.rejected .massIncomputable)
  | some calculated =>
    if tx.mass ≠ calculated then .error (.rejected (.wrongMass calculated tx.mass))
    else .ok ()

/-- Whether the relative lock of an input still holds. -/
def sequenceLocked (povDaaScore : ℕ) (input : TransactionInput) (entry : UtxoEntry) :
    Option Bool :=
  if input.sequence &&& sequenceLockTimeDisabled = sequenceLockTimeDisabled then some false
  else do
    let relativeLock := asI64 (input.sequence &&& sequenceLockTimeMask)
    let sum ← i64 (asI64 entry.blockDaaScore + relativeLock)
    let lockDaaScore ← i64 (sum - 1)
    some (decide (asI64 povDaaScore ≤ lockDaaScore))

def checkSequenceLock (povDaaScore : ℕ) : List (TransactionInput × UtxoEntry) → TxResult Unit
  | [] => .ok ()
  | (input, entry) :: rest => do
    let locked ← orPanic (sequenceLocked povDaaScore input entry)
    if locked then .error (.rejected .sequenceLockConditionsAreNotMet)
    else checkSequenceLock povDaaScore rest

/-- The fee rate has to beat a threshold, if one is given with the mass. The comparison of the
floating-point rate is the caller's. -/
def checkFeerateThreshold (fee : ℕ) : Option (ℕ × (ℕ → ℕ → Bool)) → TxResult Unit
  | none => .ok ()
  | some (contextualMass, tooLow) =>
    if contextualMass = 0 then .error .panicked
    else if tooLow fee contextualMass then .error (.rejected .feerateTooLow)
    else .ok ()

/-- Runs the scripts of all inputs. -/
def checkScripts (tx : Transaction) (entries : List UtxoEntry) : TxResult Unit :=
  let coins := entries.map fun e => (e.amount, e.scriptPublicKey)
  match tx.inputs.zipIdx.find? fun p => !V.scriptPasses tx coins p.2 with
  | some (input, _) =>
    if input.signatureScript.isEmpty then .error (.rejected .signatureEmpty)
    else .error (.rejected .signatureInvalid)
  | none => .ok ()

/-- The mass check, unless the mass was just set. -/
def checkMassUnlessSkipped (tx : Transaction) (entries : List UtxoEntry)
    (flags : TxValidationFlags) : TxResult Unit :=
  if flags ≠ .skipMassCheck then V.checkMassCommitment tx entries else .ok ()

/-- The scripts, unless they are known to pass. -/
def checkScriptsUnlessSkipped (tx : Transaction) (entries : List UtxoEntry)
    (flags : TxValidationFlags) : TxResult Unit :=
  match flags with
  | .full | .skipMassCheck => V.checkScripts tx entries
  | .skipScriptChecks => .ok ()

/-- The rules that need the coins; the result is the fee. -/
def validatePopulatedTransactionAndGetFee (tx : Transaction) (entries : List UtxoEntry)
    (povDaaScore : ℕ) (flags : TxValidationFlags)
    (massAndFeerateThreshold : Option (ℕ × (ℕ → ℕ → Bool))) : TxResult ℕ := do
  V.checkCoinbaseMaturity povDaaScore 0 (tx.inputs.zip entries)
  checkSpkRuleInputs povDaaScore (tx.inputs.zip entries)
  let totalIn ← checkInputAmounts 0 entries
  V.checkAiChallengeDeposit tx totalIn
  let totalOut ← checkTransactionOutputValues tx totalIn
  V.checkMassUnlessSkipped tx entries flags
  checkSequenceLock povDaaScore (tx.inputs.zip entries)
  checkFeerateThreshold (totalIn - totalOut) massAndFeerateThreshold
  V.checkScriptsUnlessSkipped tx entries flags
  return totalIn - totalOut

end TransactionValidator

end Tx

end KeryxNode
