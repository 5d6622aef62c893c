import KeryxNode.Collateral
import KeryxNode.ErrorChain

/-!
# Body Validation

The checks a block body passes before it is stored
(`pipeline/body_processor/body_validation_in_isolation.rs`, `body_validation_in_context.rs`), in
the order the source makes them, with the error of each. The possession proof of a block, its
*witness*, travels outside the block hash: all checks but the last one of the isolation group
read the header and the transactions only (`checksWithoutWitness`), and the last one
(`checkPomProof`) reads the header and the witness only.

What the rules take from elsewhere are parameters: digests, the transaction validator, the
coinbase decoder and the proof verifiers of each era, all of them arbitrary functions.
-/

namespace KeryxNode

namespace Body

/-! ### Blocks -/

/-- The fields of a header that body validation reads. -/
structure Header where
  hash : Hash
  directParents : List Hash
  hashMerkleRoot : Hash
  timestamp : ℕ
  bits : ℕ
  nonce : ℕ
  daaScore : ℕ
  blueScore : ℕ
  /-- The final walk state the header commits to. -/
  pomFinalState : ℕ
  /-- The tier the header commits to. -/
  pomTier : ℕ
  deriving DecidableEq

/-- How the lock time of a transaction is read. -/
inductive LockTimeType where
  | finalized
  | daaScore
  | time
  deriving DecidableEq

/-- What the lock time is compared with. -/
inductive LockTimeArg where
  | finalized
  | daaScore (daa : ℕ)
  | medianTime (time : ℕ)
  deriving DecidableEq

/-- A transaction: its masses are the calculated ones, the storage mass the committed one. -/
structure Transaction where
  id : Hash
  isCoinbase : Bool := false
  inputs : List TransactionOutpoint := []
  outputs : ℕ := 0
  payload : List UInt8 := []
  computeMass : ℕ := 0
  transientMass : ℕ := 0
  storageMass : ℕ := 0
  lockTimeType : LockTimeType := .finalized
  deriving DecidableEq

/-- A witness: the tier and final state it claims, and the evidence for them. -/
structure PomProof where
  tier : ℕ
  finalState : ℕ
  evidence : List UInt8 := []
  deriving DecidableEq

/-- A block as it is delivered. The witness and the claimed tier are attachments. -/
structure Block where
  header : Header
  transactions : List Transaction
  pomProof : Option PomProof := none
  pomTier : Option ℕ := none
  deriving DecidableEq

/-! ### Errors -/

/-- Errors of the transaction validator. -/
inductive TxRuleError where
  | coinbaseTooManyOutputs (outputs limit : ℕ)
  /-- Any other error of the validator. -/
  | other (code : ℕ)
  deriving DecidableEq

/-- Errors of a coinbase payload. -/
inductive CoinbaseError where
  | payloadLenBelowMin (len min : ℕ)
  | payloadLenAboveMax (len max : ℕ)
  | payloadScriptPublicKeyLenAboveMax (len max : ℕ)
  | payloadCantContainScriptPublicKey (len min : ℕ)
  | oPoiTagMissing
  | oPoiTagInvalid (nonce : ℕ) (tag : String)
  deriving DecidableEq

/-- Errors of the trace verifiers before H6. -/
inductive PomVerifyError where
  | wrongOpeningCount | powValueMismatch | targetNotMet | badInitialState | badFinalTracePath
  | badStateBeforePath | badWeightPath | badStateAfterPath | missingSteps | wrongStepCount
  | nonCanonicalLegacyFields | finalStateMismatch
  deriving DecidableEq

/-- Errors of the matrix-walk verifier. -/
inductive PomV3VerifyError where
  | wrongShape | wrongOpeningShape | badInitialRoot | badRowBeforePath | badRowAfterPath
  | badColumnPath | badSnippetPath | transitionMismatch | blobTooSmall | missingV3
  | nonCanonicalLegacyFields | tierMismatch | finalStateMismatch | powValueMismatch | targetNotMet
  deriving DecidableEq

/-- Errors of the re-walk verifier. -/
inductive PomV4VerifyError where
  | wrongShape | wrongTileShape | badTilePath | blobTooSmall | missingV4
  | nonCanonicalLegacyFields | tierMismatch | finalStateMismatch | powValueMismatch | targetNotMet
  deriving DecidableEq

/-- The rule errors of the body stage. -/
inductive RuleError where
  | knownInvalid
  | missingParents (missing : List Hash)
  | noTransactions
  | badMerkleRoot (header calculated : Hash)
  | firstTxNotCoinbase
  | multipleCoinbases (index : ℕ)
  | badCoinbasePayload (e : CoinbaseError)
  | pomProofMissing
  | knownBadPomWitness
  | pomUnknownTier (tier : ℕ)
  | badPomProof (e : PomVerifyError)
  | badPomProofV3 (e : PomV3VerifyError)
  | badPomProofV4 (e : PomV4VerifyError)
  | pomFinalStateMismatch (header proof : ℕ)
  | pomDeclaredTierMismatch (header proof : ℕ)
  | badCoinbasePayloadBlueScore (payload header : ℕ)
  | txInIsolationValidationFailed (tx : Hash) (e : TxRuleError)
  | exceedsComputeMassLimit (mass limit : ℕ)
  | exceedsTransientMassLimit (mass limit : ℕ)
  | exceedsStorageMassLimit (mass limit : ℕ)
  | doubleSpendInSameBlock (outpoint : TransactionOutpoint)
  | chainedTransaction (outpoint : TransactionOutpoint)
  | txInContextFailed (tx : Hash) (e : TxRuleError)
  | wrongSubsidy (expected got : ℕ)
  | duplicateTransactions (tx : Hash)
  | missingEscrowDelegation
  | badEscrowDelegation
  | insufficientDaaWindowSize (size : ℕ)
  | prunedBlock
  deriving DecidableEq

/-! ### Rules -/

/-- The decoded payload of a coinbase. -/
structure CoinbaseData where
  blueScore : ℕ
  subsidy : ℕ
  scriptPublicKey : ScriptPublicKey
  extraData : List UInt8
  deriving DecidableEq

/-- The possession anchor of a tier. -/
structure PomTier where
  root : Hash
  chunks : ℕ
  deriving DecidableEq

/-- Which salt the walk seed is derived with. -/
inductive SeedEra where
  | legacy | h3 | h5_1 | h5_2 | v4
  deriving DecidableEq

/-- What a verifier gets beside the proof and its tier. -/
structure WalkInputs where
  prePowHash : Hash
  nonce : ℕ
  seed : ℕ
  bits : ℕ
  /-- Whether the final hash uses the H3 fold. -/
  h3 : Bool
  deriving DecidableEq

/-- The configuration of the body stage. An activation is the first active score. -/
structure Rules where
  maxBlockMass : ℕ
  ghostdagK : ℕ
  skipOpoi : Bool := false
  pomActivation : ℕ
  veryLightActivation : ℕ
  pomLevelActivation : ℕ
  rewardRoutingActivation : ℕ
  coinAgeVerificationActivation : ℕ
  h5Activation : ℕ
  h51Activation : ℕ
  h52Activation : ℕ
  pomV3Activation : ℕ
  pomV4Activation : ℕ
  pomTiersLegacy : List PomTier
  pomTiersH2 : List PomTier
  pomTiersH4 : List PomTier
  pomTiersH5 : List PomTier
  pomTiersH6 : List PomTier
  calcHashMerkleRoot : List Transaction → Hash
  validateTxInIsolation : Transaction → Except TxRuleError Unit
  validateTxInHeaderContext : Transaction → LockTimeArg → Except TxRuleError Unit
  pastMedianTime : Hash → Except RuleError ℕ
  validateOpoiTag : List UInt8 → Except CoinbaseError Unit
  deserializeCoinbasePayload : List UInt8 → Except CoinbaseError CoinbaseData
  parseEscrowPubkey : List UInt8 → Option Hash
  parseEscrowEsig : List UInt8 → Option (List UInt8)
  verifyEscrowDelegation : ScriptPublicKey → Hash → List UInt8 → Bool
  calcBlockSubsidy : ℕ → ℕ
  prePowHash : Header → Hash
  pomBlockSeed : SeedEra → Hash → ℕ → ℕ → ℕ
  verifyPomProof : WalkInputs → PomProof → PomTier → Except PomVerifyError Unit
  /-- The re-walk of H4; the flag selects the non-foldable transition of H5. -/
  verifyPomProofV2 : WalkInputs → PomProof → PomTier → Bool → Except PomVerifyError Unit
  verifyPomProofV3 : WalkInputs → PomProof → PomTier → Except PomV3VerifyError Unit
  verifyPomProofV4 : WalkInputs → PomProof → PomTier → Except PomV4VerifyError Unit
  wireDigest : PomProof → Hash

namespace Rules

variable (R : Rules)

/-! ### Checks without the witness -/

/-- The first element that occurred before. -/
def firstRepeat {α : Type} [DecidableEq α] : List α → List α → Option α
  | _, [] => none
  | seen, a :: l => if a ∈ seen then some a else firstRepeat (a :: seen) l

def checkHasTransactions (txs : List Transaction) : Except RuleError Unit :=
  if txs = [] then .error .noTransactions else .ok ()

def checkHashMerkleRoot (h : Header) (txs : List Transaction) : Except RuleError Unit :=
  let calculated := R.calcHashMerkleRoot txs
  if calculated ≠ h.hashMerkleRoot then .error (.badMerkleRoot h.hashMerkleRoot calculated)
  else .ok ()

def checkOnlyOneCoinbase (txs : List Transaction) : Except RuleError Unit :=
  match txs with
  | [] => .error .noTransactions
  | coinbase :: rest =>
    if !coinbase.isCoinbase then .error .firstTxNotCoinbase
    else
      match rest.findIdx? (·.isCoinbase) with
      | some i => .error (.multipleCoinbases i)
      | none => .ok ()

/-- The bound on the outputs of a coinbase, by era. -/
def coinbaseOutputsLimit (h3 h8 : Bool) : ℕ :=
  let base := if h3 then 3 * (R.ghostdagK + 1) + 4 else R.ghostdagK + 2
  if h8 then base + maxRewardMintsPerBlock else base

def checkCoinbaseOutputsCount (h : Header) (coinbase : Transaction) : Except RuleError Unit :=
  let limit := R.coinbaseOutputsLimit (decide (R.pomLevelActivation ≤ h.daaScore))
    (decide (R.rewardRoutingActivation ≤ h.daaScore))
  if limit < coinbase.outputs then
    .error (.txInIsolationValidationFailed coinbase.id
      (.coinbaseTooManyOutputs coinbase.outputs limit))
  else .ok ()

def checkTransactionsInIsolation (txs : List Transaction) : Except RuleError Unit :=
  txs.forM fun tx =>
    (R.validateTxInIsolation tx).mapError (RuleError.txInIsolationValidationFailed tx.id)

/-- Sums the three masses and checks the limits after each transaction. -/
def checkBlockMass (limit : ℕ) : ℕ × ℕ × ℕ → List Transaction → Except RuleError (ℕ × ℕ × ℕ)
  | total, [] => .ok total
  | (compute, transient, storage), tx :: txs =>
    let u64Max := 2 ^ 64 - 1
    let compute := min (compute + tx.computeMass) u64Max
    let transient := min (transient + tx.transientMass) u64Max
    let storage := min (storage + tx.storageMass) u64Max
    if limit < compute then .error (.exceedsComputeMassLimit compute limit)
    else if limit < transient then .error (.exceedsTransientMassLimit transient limit)
    else if limit < storage then .error (.exceedsStorageMassLimit storage limit)
    else checkBlockMass limit (compute, transient, storage) txs

def checkDuplicateTransactions (txs : List Transaction) : Except RuleError Unit :=
  match firstRepeat [] (txs.map (·.id)) with
  | some id => .error (.duplicateTransactions id)
  | none => .ok ()

def checkBlockDoubleSpends (txs : List Transaction) : Except RuleError Unit :=
  match firstRepeat [] (txs.flatMap (·.inputs)) with
  | some o => .error (.doubleSpendInSameBlock o)
  | none => .ok ()

def checkNoChainedTransactions (txs : List Transaction) : Except RuleError Unit :=
  let created := txs.flatMap fun tx =>
    (List.range tx.outputs).map fun i => (⟨tx.id, i % 2 ^ 32⟩ : TransactionOutpoint)
  match (txs.flatMap (·.inputs)).find? (· ∈ created) with
  | some o => .error (.chainedTransaction o)
  | none => .ok ()

def checkOpoiTag (coinbase : Transaction) : Except RuleError Unit :=
  if R.skipOpoi then .ok ()
  else (R.validateOpoiTag coinbase.payload).mapError .badCoinbasePayload

/-- From H6 on a coinbase announces an escrow key with a signature of the payout key over it. -/
def checkEscrowDelegation (h : Header) (coinbase : Transaction) : Except RuleError Unit :=
  if R.skipOpoi || !decide (R.pomV3Activation ≤ h.daaScore) then .ok ()
  else do
    let data ← (R.deserializeCoinbasePayload coinbase.payload).mapError .badCoinbasePayload
    match R.parseEscrowPubkey data.extraData, R.parseEscrowEsig data.extraData with
    | some key, some esig =>
      if R.verifyEscrowDelegation data.scriptPublicKey key esig then .ok ()
      else .error .badEscrowDelegation
    | _, _ => .error .missingEscrowDelegation

/-- The isolation checks that read the header and the transactions only. -/
def checksWithoutWitness (h : Header) (txs : List Transaction) : Except RuleError (ℕ × ℕ × ℕ) :=
  do
    checkHasTransactions txs
    R.checkHashMerkleRoot h txs
    checkOnlyOneCoinbase txs
    let coinbase := txs.headD { id := 0 }
    R.checkCoinbaseOutputsCount h coinbase
    R.checkTransactionsInIsolation txs
    let mass ← checkBlockMass R.maxBlockMass (0, 0, 0) txs
    checkDuplicateTransactions txs
    checkBlockDoubleSpends txs
    checkNoChainedTransactions txs
    R.checkOpoiTag coinbase
    R.checkEscrowDelegation h coinbase
    return mass

/-! ### The witness -/

/-- The tier table of a score. -/
def pomTiers (daa : ℕ) : List PomTier :=
  if R.pomV3Activation ≤ daa then R.pomTiersH6
  else if R.h5Activation ≤ daa then R.pomTiersH5
  else if R.coinAgeVerificationActivation ≤ daa then R.pomTiersH4
  else if R.veryLightActivation ≤ daa then R.pomTiersH2
  else R.pomTiersLegacy

/-- The salt of the walk seed at a score. -/
def seedEra (daa : ℕ) : SeedEra :=
  if R.pomV4Activation ≤ daa then .v4
  else if R.h52Activation ≤ daa then .h5_2
  else if R.h51Activation ≤ daa then .h5_1
  else if R.pomLevelActivation ≤ daa then .h3
  else .legacy

/-- What the verifiers get of a header. -/
def walkInputs (h : Header) : WalkInputs :=
  let prePowHash := R.prePowHash h
  { prePowHash
    nonce := h.nonce
    seed := R.pomBlockSeed (R.seedEra h.daaScore) prePowHash h.timestamp h.nonce
    bits := h.bits
    h3 := decide (R.pomLevelActivation ≤ h.daaScore) }

/-- The verifier of the era. -/
def verifyWitness (h : Header) (proof : PomProof) (tier : PomTier) : Except RuleError Unit :=
  let inputs := R.walkInputs h
  if R.pomV4Activation ≤ h.daaScore then
    (R.verifyPomProofV4 inputs proof tier).mapError .badPomProofV4
  else if R.pomV3Activation ≤ h.daaScore then
    (R.verifyPomProofV3 inputs proof tier).mapError .badPomProofV3
  else if R.coinAgeVerificationActivation ≤ h.daaScore then
    (R.verifyPomProofV2 inputs proof tier (decide (R.h5Activation ≤ h.daaScore))).mapError
      .badPomProof
  else (R.verifyPomProof inputs proof tier).mapError .badPomProof

/-- The possession check of a witness against a header. -/
def checkPomProof (h : Header) (pomProof : Option PomProof) : Except RuleError Unit :=
  if R.skipOpoi then .ok ()
  else if ¬ R.pomActivation ≤ h.daaScore then .ok ()
  else
    match pomProof with
    | none => .error .pomProofMissing
    | some proof =>
      if R.pomLevelActivation ≤ h.daaScore ∧ proof.finalState ≠ h.pomFinalState then
        .error (.pomFinalStateMismatch h.pomFinalState proof.finalState)
      else
        match (R.pomTiers h.daaScore)[proof.tier]? with
        | none => .error (.pomUnknownTier proof.tier)
        | some tier =>
          if R.pomV3Activation ≤ h.daaScore ∧ h.pomTier ≠ proof.tier then
            .error (.pomDeclaredTierMismatch h.pomTier proof.tier)
          else R.verifyWitness h proof tier

/-- The isolation checks. The path of the initial block download skips the witness. -/
def validateBodyInIsolation (b : Block) (skipPomProof : Bool) : Except RuleError (ℕ × ℕ × ℕ) :=
  do
    let mass ← R.checksWithoutWitness b.header b.transactions
    if !skipPomProof then R.checkPomProof b.header b.pomProof
    return mass

/-! ### Checks in context -/

/-- The parents whose bodies are not stored. -/
def checkParentBodiesExist (hasBody : Hash → Bool) (h : Header) : Except RuleError Unit :=
  let missing := h.directParents.filter fun p => !hasBody p
  if missing ≠ [] then .error (.missingParents missing) else .ok ()

def checkCoinbaseBlueScoreAndSubsidy (h : Header) (coinbase : Transaction) :
    Except RuleError Unit := do
  let data ← (R.deserializeCoinbasePayload coinbase.payload).mapError .badCoinbasePayload
  if data.blueScore ≠ h.blueScore then
    throw (.badCoinbasePayloadBlueScore data.blueScore h.blueScore)
  let expectedSubsidy := R.calcBlockSubsidy h.daaScore
  if data.subsidy ≠ expectedSubsidy then throw (.wrongSubsidy expectedSubsidy data.subsidy)

def checkBlockTransactionsInContext (h : Header) (txs : List Transaction) :
    Except RuleError Unit :=
  txs.forM fun tx => do
    let lockTimeArg ← match tx.lockTimeType with
      | .finalized => pure LockTimeArg.finalized
      | .daaScore => pure (.daaScore h.daaScore)
      | .time => LockTimeArg.medianTime <$> R.pastMedianTime h.hash
    (R.validateTxInHeaderContext tx lockTimeArg).mapError (RuleError.txInContextFailed tx.id)

/-- The context checks past the parents, which read the header and the transactions only. -/
def checksInContext (h : Header) (txs : List Transaction) : Except RuleError Unit := do
  R.checkCoinbaseBlueScoreAndSubsidy h (txs.headD { id := 0 })
  R.checkBlockTransactionsInContext h txs

/-- The whole validation, given which bodies are stored. -/
def validateBody (hasBody : Hash → Bool) (b : Block) (isTrusted skipPomProof : Bool) :
    Except RuleError (ℕ × ℕ × ℕ) := do
  let mass ← R.validateBodyInIsolation b skipPomProof
  if !isTrusted then
    checkParentBodiesExist hasBody b.header
    R.checksInContext b.header b.transactions
  return mass

end Rules

end Body

end KeryxNode
