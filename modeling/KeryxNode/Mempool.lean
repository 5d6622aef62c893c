import KeryxNode.OrphanPool

/-!
# The Mempool

The operations on the mempool (`mining/src/mempool`). Each takes the lock of the mempool, so a run
is a sequence of them: the insertion of a validated transaction, with the replacement of double
spends and the eviction that makes room for it; removals with or without the transactions that
depend on the removed one; the handling of a new block; the update of a transaction that was
validated again; and the expiry of old entries. An operation that returns an error keeps what it
changed until then.
-/

namespace KeryxNode

open Tx
open KeryxNode.Action (ofExcept unwrap attempt)

/-- Transactions accepted by the consensus, with the score of the block. -/
structure Mempool.AcceptedTransactions where
  transactions : OrdMap Hash ℕ := OrdMap.empty
  lastExpireScanDaaScore : ℕ := 0
  lastExpireScanTime : ℕ := 0

/-- The mempool. The index of pending responses is kept as one list of entries, request first; a
request without entries is not in the index. -/
structure Mempool (F : Type) [LinearOrder F] where
  transactionPool : Mempool.TransactionsPool F := {}
  orphanPool : Mempool.OrphanPool := {}
  acceptedTransactions : Mempool.AcceptedTransactions := {}
  /-- Request hash, responder key and transaction of every pending response. -/
  aiResponseIndex : List (List UInt8 × Option (List UInt8) × Hash) := []
  /-- Response hash and transaction of every pending challenge. -/
  aiChallengeIndex : List (List UInt8 × Hash) := []

namespace Mempool

variable {F : Type} [LinearOrder F] (P : Params F)

/-- A computation with exclusive access to the mempool. -/
abbrev Op (F : Type) [LinearOrder F] (α : Type) :=
  Action (Mempool F) RuleError α

/-- A computation over the transaction pool. -/
def onPool {α : Type} (x : Action (TransactionsPool F) RuleError α) : Op F α :=
  Action.zoom transactionPool (fun mempool pool => { mempool with transactionPool := pool }) x

/-- A computation over the orphan pool. -/
def onOrphans {α : Type} (x : Action OrphanPool RuleError α) : Op F α :=
  Action.zoom orphanPool (fun mempool orphans => { mempool with orphanPool := orphans }) x

/-- Coins of the pool have this score. -/
def unacceptedDaaScore : ℕ := u64Max

/-- Pending responses a request may have. -/
def maxPendingAiResponsesPerRequest : ℕ := 256

/-! ### The indexes of responses and challenges -/

/-- The response a transaction carries. -/
def response? (tx : Tx.Transaction) : Option AiResponsePayload :=
  if tx.isAiResponse then AiResponsePayload.deserialize tx.payload else none

/-- The response hash of the challenge a transaction carries. -/
def challengedHash? (tx : Tx.Transaction) : Option (List UInt8) :=
  if tx.isAiChallenge then (AiChallengePayload.deserialize tx.payload).map
    AiChallengePayload.responseHash
  else none

/-- Clears the indexes of a removed transaction. -/
def forgetAi (id : Hash) (tx : Tx.Transaction) (mempool : Mempool F) : Mempool F :=
  { mempool with
    aiResponseIndex :=
      match response? tx with
      | none => mempool.aiResponseIndex
      | some resp => mempool.aiResponseIndex.filter fun entry =>
        !(decide (entry.1 = resp.requestHash) && decide (entry.2.2 = id))
    aiChallengeIndex :=
      match challengedHash? tx with
      | none => mempool.aiChallengeIndex
      | some hash => mempool.aiChallengeIndex.filter fun entry => decide (entry.1 ≠ hash) }

/-- Registers an inserted transaction in the indexes. -/
def registerAi (id : Hash) (tx : Tx.Transaction) (mempool : Mempool F) : Mempool F :=
  { mempool with
    aiResponseIndex :=
      match response? tx with
      | none => mempool.aiResponseIndex
      | some resp => mempool.aiResponseIndex ++
          [(resp.requestHash, resp.responder.map AiResponder.escrowPubkey, id)]
    aiChallengeIndex :=
      match challengedHash? tx with
      | none => mempool.aiChallengeIndex
      | some hash => (mempool.aiChallengeIndex.filter fun entry => decide (entry.1 ≠ hash)) ++
          [(hash, id)] }

/-! ### Removal -/

/-- Removes one transaction of the pool and updates the indexes and the orphans. -/
def removePoolTransaction (removeRedeemers : Bool) (id : Hash) : Op F Unit := do
  let tx ← onPool (TransactionsPool.removeTransaction P id)
  Action.modify (forgetAi id tx.mtx.tx)
  let _ ← onOrphans (OrphanPool.updateOrphansAfterTransactionRemoved P tx removeRedeemers)
  return ()

/-- Removes a transaction. An id that is in the orphan pool is only removed there, with the
orphans that depend on it. -/
def removeTransaction (id : Hash) (removeRedeemers : Bool) : Op F Unit := do
  let mempool ← Action.get
  if mempool.orphanPool.has id then
    let _ ← onOrphans (OrphanPool.removeOrphan P id true)
    return ()
  else if mempool.transactionPool.has id then
    let removed := id :: if removeRedeemers then mempool.transactionPool.redeemerIds P id else []
    removed.forM (removePoolTransaction P removeRedeemers)
  else return ()

/-! ### Validation -/

def validateTransactionUnacceptance (mempool : Mempool F) (m : MutableTransaction) :
    Except RuleError Unit :=
  if mempool.acceptedTransactions.transactions.contains (P.idOf m) then
    .error (.rejectAlreadyAccepted (P.idOf m))
  else .ok ()

/-- One response per request and responder, with a cap per request. -/
def checkAiResponse (mempool : Mempool F) (resp : AiResponsePayload) : Except RuleError Unit :=
  let verified := match resp.responder with
    | some r => P.verifyResponderSignature r.escrowPubkey r.signature resp.signedBytes
    | none => true
  let entries := mempool.aiResponseIndex.filter fun entry => decide (entry.1 = resp.requestHash)
  if !verified then .error (.rejectAiResponderSignature resp.requestHash)
  else if resp.responder.map AiResponder.escrowPubkey ∈ entries.map (fun entry => entry.2.1) then
    .error (.rejectDuplicateAiResponse resp.requestHash)
  else if maxPendingAiResponsesPerRequest ≤ entries.length then
    .error (.rejectAiResponsesSaturated resp.requestHash)
  else .ok ()

/-- One challenge per response. -/
def checkAiChallenge (mempool : Mempool F) (hash : List UInt8) : Except RuleError Unit :=
  if hash ∈ mempool.aiChallengeIndex.map Prod.fst then .error (.rejectDuplicateAiChallenge hash)
  else .ok ()

def validateTransactionInIsolation (mempool : Mempool F) (m : MutableTransaction) :
    Except RuleError Unit := do
  if mempool.transactionPool.has (P.idOf m) then throw (.rejectDuplicate (P.idOf m))
  if let some resp := response? m.tx then mempool.checkAiResponse P resp
  if let some hash := challengedHash? m.tx then mempool.checkAiChallenge hash
  if !P.acceptNonStandard then P.checkTransactionStandardInIsolation m

def validateTransactionInContext (m : MutableTransaction) : Except RuleError Unit :=
  if P.acceptNonStandard then .ok () else P.checkTransactionStandardInContext m

/-! ### Replacement by fee -/

def getDoubleSpendFeerate (mempool : Mempool F) (d : DoubleSpend) : Except RuleError F := do
  let owner ← mempool.transactionPool.getDoubleSpendOwner d
  match P.calculatedFeerate owner.mtx with
  | some feerate => .ok feerate
  | none => .error d.toError

/-- The fee rate to beat under a policy. -/
def getReplaceByFeeConstraint (mempool : Mempool F) (m : MutableTransaction)
    (rbfPolicy : RbfPolicy) : Except RuleError (Option F) :=
  match rbfPolicy with
  | .forbidden => do
    mempool.transactionPool.checkDoubleSpends P m
    return none
  | .allowed =>
    match mempool.transactionPool.getDoubleSpendTransactionIds P m with
    | [] => .ok none
    | doubleSpends => do
      let threshold ← doubleSpends.foldlM (fun threshold d => do
        let feerate ← mempool.getDoubleSpendFeerate P d
        return P.maxRate threshold feerate) P.zeroRate
      return some threshold
  | .mandatory =>
    match mempool.transactionPool.getDoubleSpendTransactionIds P m with
    | [] => .error .rejectRbfNoDoubleSpend
    | [d] => do
      let feerate ← mempool.getDoubleSpendFeerate P d
      return some feerate
    | _ => .error .rejectRbfTooManyDoubleSpendingTransactions

/-- The owner of a double spend, if the transaction pays a higher fee rate. -/
def validateDoubleSpendingTransaction (mempool : Mempool F) (m : MutableTransaction)
    (d : DoubleSpend) : Except RuleError MempoolTransaction := do
  let owner ← mempool.transactionPool.getDoubleSpendOwner d
  match P.calculatedFeerate m, P.calculatedFeerate owner.mtx with
  | some feerate, some doubleSpendFeerate =>
    if P.exceeds feerate doubleSpendFeerate then .ok owner else .error d.toError
  | _, _ => .error d.toError

/-- Removes the double-spending transactions with all that depends on them, if the policy and the
fee rate allow it. All are validated before the first is removed. -/
def executeReplaceByFee (m : MutableTransaction) (rbfPolicy : RbfPolicy) :
    Op F (Option Tx.Transaction) := do
  let mempool ← Action.get
  match rbfPolicy with
  | .forbidden =>
    ofExcept (mempool.transactionPool.checkDoubleSpends P m)
    return none
  | .allowed =>
    match mempool.transactionPool.getDoubleSpendTransactionIds P m with
    | [] => return none
    | d :: rest =>
      let removed ← ofExcept (mempool.validateDoubleSpendingTransaction P m d)
      rest.forM fun d => do
        let _ ← ofExcept (mempool.validateDoubleSpendingTransaction P m d)
        return ()
      (d :: rest).forM fun d => removeTransaction P d.ownerId true
      return some removed.mtx.tx
  | .mandatory =>
    match mempool.transactionPool.getDoubleSpendTransactionIds P m with
    | [] => Action.throw .rejectRbfNoDoubleSpend
    | [d] =>
      let removed ← ofExcept (mempool.validateDoubleSpendingTransaction P m d)
      removeTransaction P d.ownerId true
      return some removed.mtx.tx
    | _ => Action.throw .rejectRbfTooManyDoubleSpendingTransactions

/-! ### Orphans that find their coins -/

/-- The policy of an orphan: one submitted here forbids replacement. -/
def getOrphanTransactionRbfPolicy : Priority → RbfPolicy
  | .high => .forbidden
  | .low => .allowed

/-- Takes a transaction out of the orphan pool; a panic unless exactly one was removed. -/
def unorphanTransaction (id : Hash) : Op F MempoolTransaction := do
  let transactions ← onOrphans (OrphanPool.removeOrphan P id false)
  match transactions with
  | [transaction] =>
    let mempool ← Action.get
    ofExcept (mempool.validateTransactionUnacceptance P transaction.mtx)
    let _ ← ofExcept (mempool.getReplaceByFeeConstraint P transaction.mtx
      (getOrphanTransactionRbfPolicy transaction.priority))
    return transaction
  | _ => unwrap none

/-- The transaction with the coin of the first input that spends an outpoint, unless that input
has one. -/
def fillEntry (m : MutableTransaction) (outpoint : TransactionOutpoint) (entry : UtxoEntry) :
    Option MutableTransaction :=
  let i := m.tx.inputs.findIdx fun input => decide (input.previousOutpoint = outpoint)
  if m.entries[i]? = some none then some (m.setEntry i (some entry)) else none

/-- Gives the orphan that spends one output its coin, and takes it out of the orphan pool if it
was the last one missing. -/
def unorphanBy (id : Hash) (output : TransactionOutput × ℕ) :
    Op F (List MempoolTransaction) := do
  let outpoint : TransactionOutpoint := ⟨id, output.2⟩
  let entry := UtxoEntry.new output.1.value output.1.scriptPublicKey unacceptedDaaScore false
  let orphan ← Action.read fun mempool => mempool.orphanPool.outpointOrphan outpoint
  match orphan.bind fun orphan => fillEntry orphan.mtx outpoint entry with
  | none => return []
  | some filled =>
    onOrphans (Action.modify fun orphans => orphans.modifyOutpointOrphan outpoint fun _ => filled)
    if filled.isVerifiable then
      match ← attempt (unorphanTransaction P (P.idOf filled)) with
      | .ok transaction => return [transaction]
      | .error _ => return []
    else return []

/-- The transactions that are no orphans any more after a transaction was accepted. -/
def getUnorphanedTransactionsAfterAcceptedTransaction (tx : Tx.Transaction) :
    Op F (List MempoolTransaction) := do
  let unorphaned ← tx.outputs.zipIdx.mapM (unorphanBy P (P.txId tx))
  return unorphaned.flatten

/-! ### Insertion -/

/-- A transaction with the coins that pool transactions create, and the fee rate to beat. -/
structure TransactionPreValidation (F : Type) where
  transaction : MutableTransaction
  feerateThreshold : Option F

/-- The entry of an input: the output of the pool transaction it spends from, or what it was. A
panic if that transaction has no such output. -/
def populateMempoolEntry (mempool : Mempool F) (input : TransactionInput)
    (entry : Option UtxoEntry) : Option (Option UtxoEntry) :=
  match mempool.transactionPool.get input.previousOutpoint.transactionId with
  | none => some entry
  | some parent =>
    (parent.mtx.tx.outputs[input.previousOutpoint.index]?).map fun output =>
      some (UtxoEntry.new output.value output.scriptPublicKey unacceptedDaaScore false)

/-- Fills the entries that pool transactions supply. -/
def populateMempoolEntries (mempool : Mempool F) (m : MutableTransaction) :
    Option MutableTransaction :=
  if (List.zipWith (mempool.populateMempoolEntry) m.tx.inputs m.entries).all Option.isSome then
    some (m.mapEntries fun input entry => (mempool.populateMempoolEntry input entry).join)
  else none

/-- The checks of the mempool before a transaction goes to the consensus. -/
def preValidateAndPopulateTransaction (mempool : Mempool F) (m : MutableTransaction)
    (rbfPolicy : RbfPolicy) : Option (Except RuleError (TransactionPreValidation F)) :=
  let m := { m with
    calculatedNonContextualMasses := some (P.calculateTransactionNonContextualMasses m.tx) }
  let checked : Except RuleError (Option F) := do
    mempool.validateTransactionUnacceptance P m
    mempool.validateTransactionInIsolation P m
    mempool.getReplaceByFeeConstraint P m rbfPolicy
  match checked with
  | .error e => some (.error e)
  | .ok feerateThreshold =>
    (mempool.populateMempoolEntries m).map fun transaction =>
      .ok { transaction, feerateThreshold }

/-- What an insertion removed and accepted. -/
structure TransactionPostValidation where
  removed : Option Tx.Transaction := none
  accepted : Option Tx.Transaction := none

/-- Removes the selected transactions until there is room. -/
def makeRoom (transactionSize : ℕ) : List Hash → Op F Unit
  | [] => return ()
  | id :: ids => do
    removeTransaction P id true
    let mempool ← Action.get
    if mempool.transactionPool.hasRoom P transactionSize then return ()
    else makeRoom transactionSize ids

/-- Makes room for a transaction and adds it to the pool; a panic if there is no room then. -/
def insertTransaction (m : MutableTransaction) (virtualDaaScore : ℕ) (priority : Priority) :
    Op F Unit := do
  let transactionSize := P.mempoolEstimatedBytes m
  let mempool ← Action.get
  let selected ← unwrap (mempool.transactionPool.limitTransactionCount P m transactionSize)
  let txsToRemove ← ofExcept selected
  makeRoom P transactionSize txsToRemove
  let mempool ← Action.get
  if mempool.transactionPool.hasRoom P transactionSize then
    Action.tryModify fun mempool =>
      (mempool.transactionPool.addMempoolTransaction P ⟨m, priority, virtualDaaScore⟩
        transactionSize).map fun pool => { mempool with transactionPool := pool }
    Action.modify (registerAi (P.idOf m) m.tx)
  else unwrap none

/-- Inserts a transaction the consensus has validated, or keeps it as an orphan if only its coins
are missing. -/
def postValidateAndInsertTransaction (validationResult : Except RuleError Unit)
    (m : MutableTransaction) (virtualDaaScore : ℕ) (priority : Priority) (orphan : Orphan)
    (rbfPolicy : RbfPolicy) : Op F TransactionPostValidation := do
  let mempool ← Action.get
  if mempool.transactionPool.has (P.idOf m) then Action.throw (.rejectDuplicate (P.idOf m))
  else
    ofExcept (mempool.validateTransactionUnacceptance P m)
    match validationResult with
    | .error .rejectMissingOutpoint =>
      if orphan = .forbidden then Action.throw (.rejectDisallowedOrphan (P.idOf m))
      else
        let _ ← ofExcept (mempool.getReplaceByFeeConstraint P m rbfPolicy)
        onOrphans (OrphanPool.tryAddOrphan P virtualDaaScore m priority)
        return {}
    | .error e => Action.throw e
    | .ok () =>
      ofExcept (validateTransactionInContext P m)
      let removed ← executeReplaceByFee P m rbfPolicy
      insertTransaction P m virtualDaaScore priority
      return { removed, accepted := some m.tx }

/-- The error of the mempool for one of the consensus. -/
def RuleError.ofTxRuleError (e : TxRuleError) : RuleError :=
  match e with
  | .immatureCoinbaseSpend .. => .rejectImmatureSpend e
  | .missingTxOutpoints => .rejectMissingOutpoint
  | _ => .rejectTxRule e

/-- What the consensus is asked to check: the fee rate to beat. -/
def TransactionPreValidation.args (pre : TransactionPreValidation F) :
    TransactionValidationArgs where
  feerateThreshold := pre.feerateThreshold.map fun threshold fee mass =>
    !P.exceeds (P.feerate fee mass) threshold

/-- The consensus validates a transaction, which is then inserted. The coins that were found stay
with a transaction some of whose coins are missing. -/
def validateAndInsert (N : VirtualProcessor) (view : UtxoView)
    (virtualDaaScore pastMedianTime : ℕ) (pre : TransactionPreValidation F) (priority : Priority)
    (orphan : Orphan) (rbfPolicy : RbfPolicy) : Op F TransactionPostValidation :=
  match N.validateMempoolTransactionImpl pre.transaction view virtualDaaScore pastMedianTime
      (pre.args P) with
  | .ok m => postValidateAndInsertTransaction P (.ok ()) m virtualDaaScore priority orphan rbfPolicy
  | .error (.rejected e) => postValidateAndInsertTransaction P (.error (.ofTxRuleError e))
      (pre.transaction.mapEntries fun input entry => entry <|> view input.previousOutpoint)
      virtualDaaScore priority orphan rbfPolicy
  | .error .panicked => unwrap none

/-- The submission of a transaction up to its insertion, with nothing in between. -/
def validateAndInsertMutableTransaction (N : VirtualProcessor) (view : UtxoView)
    (virtualDaaScore pastMedianTime : ℕ) (m : MutableTransaction) (priority : Priority)
    (orphan : Orphan) (rbfPolicy : RbfPolicy) : Op F TransactionPostValidation := do
  let mempool ← Action.get
  let checked ← unwrap (mempool.preValidateAndPopulateTransaction P m rbfPolicy)
  let pre ← ofExcept checked
  validateAndInsert P N view virtualDaaScore pastMedianTime pre priority orphan rbfPolicy

/-! ### New blocks -/

/-- Removes the pool transactions that spend an outpoint of a transaction. -/
def removeDoubleSpends (tx : Tx.Transaction) : Op F Unit := do
  let owners ← Action.read fun mempool => (tx.inputs.filterMap fun input =>
    mempool.transactionPool.getOutpointOwnerId input.previousOutpoint).toFinset
  (P.members owners).forM fun id => removeTransaction P id true

/-- Registers an accepted transaction. -/
def accept (id : Hash) (blockDaaScore : ℕ) (mempool : Mempool F) : Mempool F :=
  { mempool with acceptedTransactions := { mempool.acceptedTransactions with
      transactions := mempool.acceptedTransactions.transactions.insert id blockDaaScore } }

/-- One transaction of a block: it leaves the pools, transactions that spend the same outpoints
leave with all that depends on them, and orphans may find a coin. -/
def handleBlockTransaction (blockDaaScore : ℕ) (tx : Tx.Transaction) :
    Op F (List MempoolTransaction) := do
  let id := P.txId tx
  let mempool ← Action.get
  if !mempool.orphanPool.has id then removeTransaction P id false
  removeDoubleSpends P tx
  let _ ← onOrphans (OrphanPool.removeOrphan P id false)
  Action.modify (accept id blockDaaScore)
  getUnorphanedTransactionsAfterAcceptedTransaction P tx

/-- All transactions of a block but the coinbase; a panic if there is none. -/
def handleNewBlockTransactions (blockDaaScore : ℕ) (txs : List Tx.Transaction) :
    Op F (List MempoolTransaction) :=
  match txs with
  | [] => unwrap none
  | _ :: rest => do
    let unorphaned ← rest.mapM (handleBlockTransaction P blockDaaScore)
    return unorphaned.flatten

/-! ### Revalidation and expiry -/

/-- A pool transaction prepared for revalidation: its coins are looked up in the pool and, if some
are still missing, in a view of the consensus. Nothing is to do for a transaction that is gone or
accepted, or whose coins are all in the pool. -/
def prepareRevalidation (mempool : Mempool F) (view : TransactionOutpoint → Option UtxoEntry)
    (id : Hash) : Option (Option MutableTransaction) :=
  match mempool.transactionPool.get id with
  | none => some none
  | some tx =>
    if mempool.acceptedTransactions.transactions.contains id then some none
    else
      (mempool.populateMempoolEntries (tx.mtx.mapEntries fun _ _ => none)).map fun m =>
        if m.isFullyPopulated then none
        else some (m.mapEntries fun input entry => entry <|> view input.previousOutpoint)

/-- Replaces a transaction whose coins were all found; one with missing coins is removed alone. -/
def finishRevalidation (m : MutableTransaction) : Op F Unit :=
  if m.isVerifiable then
    Action.tryModify fun mempool =>
      (mempool.transactionPool.updateRevalidatedTransaction P m).map fun updated =>
        { mempool with transactionPool := updated.2 }
  else do
    let _ ← attempt (removeTransaction P (P.idOf m) false)
    return ()

/-- Revalidates some transactions. All are prepared before the first one is finished. -/
def revalidateTransactions (ids : List Hash) (view : TransactionOutpoint → Option UtxoEntry) :
    Op F Unit := do
  let mempool ← Action.get
  let prepared ← unwrap (ids.mapM (mempool.prepareRevalidation view))
  prepared.reduceOption.forM (finishRevalidation P)

/-- Forgets transactions that were accepted too long ago, if a scan is due. -/
def expireAcceptedTransactions (virtualDaaScore now : ℕ) (mempool : Mempool F) : Mempool F :=
  let accepted := mempool.acceptedTransactions
  if virtualDaaScore < accepted.lastExpireScanDaaScore +
        P.acceptedTransactionExpireScanIntervalDaaScore ∨
      now < accepted.lastExpireScanTime + P.acceptedTransactionExpireScanIntervalMilliseconds then
    mempool
  else { mempool with acceptedTransactions :=
    { transactions := accepted.transactions.filter fun _ daaScore =>
        !decide (daaScore + P.acceptedTransactionExpireIntervalDaaScore < virtualDaaScore)
      lastExpireScanDaaScore := virtualDaaScore
      lastExpireScanTime := now } }

/-- Removes the low-priority transactions that are too old; an error at one does not stop the
others. -/
def expireLowPriorityTransactions (virtualDaaScore now : ℕ) : Op F Unit := do
  let expired ← fun mempool : Mempool F =>
    let (expired, pool) := mempool.transactionPool.collectExpiredLowPriorityTransactions P
      virtualDaaScore now
    some (.ok expired, { mempool with transactionPool := pool })
  expired.forM fun id => do
    let _ ← attempt (removeTransaction P id true)
    return ()

/-! ### Runs -/

/-- What happens to the mempool while the node runs, with whatever arguments the calls are made. A
revalidation and an expiry of transactions are one step each here; the node gives up the lock of the
mempool between the chunks of their work, so that other calls may come in between. -/
inductive Operation where
  | insert (validationResult : Except RuleError Unit) (m : MutableTransaction)
      (virtualDaaScore : ℕ) (priority : Priority) (orphan : Orphan) (rbfPolicy : RbfPolicy)
  | remove (id : Hash) (removeRedeemers : Bool)
  | newBlock (blockDaaScore : ℕ) (txs : List Tx.Transaction)
  | revalidate (ids : List Hash) (view : TransactionOutpoint → Option UtxoEntry)
  | expireOrphans (virtualDaaScore : ℕ)
  | expireAccepted (virtualDaaScore now : ℕ)
  | expireLowPriority (virtualDaaScore now : ℕ)

/-- An operation, without what it returns. After an insertion the orphans that wait for the
transaction are looked for under the same lock. -/
def Operation.perform : Operation → Op F Unit
  | .insert validationResult m virtualDaaScore priority orphan rbfPolicy => do
    let result ← postValidateAndInsertTransaction P validationResult m virtualDaaScore priority
      orphan rbfPolicy
    match result.accepted with
    | none => return ()
    | some tx => do
      let _ ← getUnorphanedTransactionsAfterAcceptedTransaction P tx
      return ()
  | .remove id removeRedeemers => removeTransaction P id removeRedeemers
  | .newBlock blockDaaScore txs => do
    let _ ← handleNewBlockTransactions P blockDaaScore txs
    return ()
  | .revalidate ids view => revalidateTransactions P ids view
  | .expireOrphans virtualDaaScore =>
    onOrphans (OrphanPool.expireLowPriorityTransactions P virtualDaaScore)
  | .expireAccepted virtualDaaScore now =>
    Action.modify (expireAcceptedTransactions P virtualDaaScore now)
  | .expireLowPriority virtualDaaScore now => expireLowPriorityTransactions P virtualDaaScore now

/-- The mempool after a sequence of operations, whether they returned values or errors; `none` is
a panic. -/
def after (operations : List Operation) : Option (Mempool F) :=
  operations.foldlM (fun mempool op => (op.perform P mempool).map Prod.snd) {}

end Mempool

end KeryxNode
