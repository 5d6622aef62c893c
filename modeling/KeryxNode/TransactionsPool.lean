import KeryxNode.Action
import KeryxNode.TxAdmission
import KeryxNode.Worklist
import Mathlib.Data.Finset.Sort

/-!
# The Transaction Pool

The pool of transactions a block template is built from (`mining/src/mempool/model`): the
transactions by id, the edges between those that spend each other's outputs, the frontier of
transactions that spend none, and the owner of every outpoint that is spent in the pool. Hash sets
and hash maps are walked in an order of their own; it is a permutation the results do not depend on.
-/

namespace KeryxNode

open Tx List

namespace Mempool

/-! ### Transactions of the mempool -/

inductive Priority where
  | low
  | high
  deriving DecidableEq

inductive Orphan where
  | forbidden
  | allowed
  deriving DecidableEq

/-- Replacement of double-spending transactions by fee. -/
inductive RbfPolicy where
  | forbidden
  | allowed
  | mandatory
  deriving DecidableEq

/-- Why the mempool refuses an operation. -/
inductive RuleError where
  | rejectTxRule (e : TxRuleError)
  | rejectMissingOutpoint
  | rejectAlreadyAccepted (id : Hash)
  | rejectDuplicate (id : Hash)
  | rejectDoubleSpendInMempool (outpoint : TransactionOutpoint) (owner : Hash)
  | rejectRbfNoDoubleSpend
  | rejectRbfTooManyDoubleSpendingTransactions
  | rejectMempoolIsFull
  | rejectNonStandard (id : Hash) (text : String)
  | rejectImmatureSpend (e : TxRuleError)
  | rejectMissingTransaction (id : Hash)
  | rejectBadOrphanMass (mass maximum : ℕ)
  | rejectDuplicateOrphan (id : Hash)
  | rejectDoubleSpendOrphan (id owner : Hash)
  | rejectDisallowedOrphan (id : Hash)
  | rejectMissingOrphanOutpoint (input : ℕ) (id : Hash) (outpoint : TransactionOutpoint)
  | rejectMissingOrphanTransaction (id : Hash)
  | rejectOrphanPoolIsFull (count maximum : ℕ)
  | rejectDuplicateAiResponse (requestHash : List UInt8)
  | rejectAiResponderSignature (requestHash : List UInt8)
  | rejectAiResponsesSaturated (requestHash : List UInt8)
  | rejectDuplicateAiChallenge (responseHash : List UInt8)

/-- A transaction with the score and the priority it came with. -/
structure MempoolTransaction where
  mtx : MutableTransaction
  priority : Priority
  addedAtDaaScore : ℕ

/-- The key of a frontier transaction: weight, fee and id, compared in this order. -/
abbrev FeerateKey (F : Type) :=
  F ×ₗ ℕ ×ₗ Hash

/-- The configuration of a mempool and what it takes from elsewhere: the digest of a transaction,
the floating-point arithmetic of fee rates, its size estimate, the standardness rules and the
verification of responder signatures. -/
structure Params (F : Type) where
  txId : Tx.Transaction → Hash
  /-- The fee rate `fee / mass`. -/
  feerate : ℕ → ℕ → F
  /-- The weight `(fee / mass)³`. -/
  weight : ℕ → ℕ → F
  /-- The comparison `>` of fee rates. -/
  exceeds : F → F → Bool
  zeroRate : F
  maxRate : F → F → F
  /-- The order in which a hash set is walked. -/
  walk : List Hash → List Hash
  walk_perm : ∀ l, (walk l).Perm l
  mempoolEstimatedBytes : MutableTransaction → ℕ
  calculateTransactionNonContextualMasses : Tx.Transaction → ℕ × ℕ
  checkTransactionStandardInIsolation : MutableTransaction → Except RuleError Unit
  checkTransactionStandardInContext : MutableTransaction → Except RuleError Unit
  verifyResponderSignature : List UInt8 → List UInt8 → List UInt8 → Bool
  acceptNonStandard : Bool := false
  maximumTransactionCount : ℕ := 1000000
  mempoolSizeLimit : ℕ := 1000000000
  transactionExpireIntervalDaaScore : ℕ
  transactionExpireScanIntervalDaaScore : ℕ
  transactionExpireScanIntervalMilliseconds : ℕ := 60000
  acceptedTransactionExpireIntervalDaaScore : ℕ
  acceptedTransactionExpireScanIntervalDaaScore : ℕ
  acceptedTransactionExpireScanIntervalMilliseconds : ℕ := 10000
  orphanExpireIntervalDaaScore : ℕ
  orphanExpireScanIntervalDaaScore : ℕ
  maximumOrphanTransactionMass : ℕ := 100000
  maximumOrphanTransactionCount : ℕ := 500

/-- The members of a hash set, in walking order. -/
def Params.members {F : Type} (P : Params F) (ids : Finset Hash) : List Hash :=
  P.walk (ids.sort (· ≤ ·))

@[simp]
theorem Params.mem_members {F : Type} {P : Params F} {ids : Finset Hash}
    {id : Hash} : id ∈ P.members ids ↔ id ∈ ids :=
  (P.walk_perm _).mem_iff.trans (Finset.mem_sort _)

end Mempool

namespace Tx.MutableTransaction

variable (m : MutableTransaction)

/-- A transaction none of whose coins is known yet. -/
def fromTx (tx : Tx.Transaction) : MutableTransaction :=
  { tx, entries := replicate tx.inputs.length none, aligned := length_replicate }

/-- The transactions whose outputs the inputs spend. -/
def spentIds : List Hash :=
  m.tx.inputs.map fun input => input.previousOutpoint.transactionId

def isVerifiable : Bool :=
  m.entries.all Option.isSome

def isFullyPopulated : Bool :=
  m.isVerifiable && m.calculatedFee.isSome && m.calculatedNonContextualMasses.isSome

/-- The largest of the storage, compute and transient mass. -/
def calculatedMass : Option ℕ :=
  m.calculatedNonContextualMasses.map fun masses => max m.tx.mass (max masses.1 masses.2)

def hasParentInSet (parents : List Hash) : Bool :=
  m.spentIds.any fun id => decide (id ∈ parents)

/-- Replaces the entry of each input. -/
def mapEntries (f : TransactionInput → Option UtxoEntry → Option UtxoEntry) : MutableTransaction :=
  { m with
    entries := zipWith f m.tx.inputs m.entries
    aligned := by rw [length_zipWith, m.aligned, Nat.min_self] }

/-- Replaces the entry of one input. -/
def setEntry (i : ℕ) (entry : Option UtxoEntry) : MutableTransaction :=
  { m with
    entries := m.entries.set i entry
    aligned := by rw [length_set, m.aligned] }

end Tx.MutableTransaction

namespace Mempool

variable {F : Type} (P : Params F)

namespace Params

/-- The id of a transaction. -/
def idOf (m : MutableTransaction) : Hash :=
  P.txId m.tx

/-- The fee rate, once fee and masses are known. -/
def calculatedFeerate (m : MutableTransaction) : Option F := do
  let mass ← m.calculatedMass
  let fee ← m.calculatedFee
  some (P.feerate fee mass)

/-- The frontier key of a transaction, once fee and masses are known. -/
def feerateKey (m : MutableTransaction) : Option (FeerateKey F) := do
  let mass ← m.calculatedMass
  let fee ← m.calculatedFee
  some (toLex (P.weight fee mass, toLex (fee, P.idOf m)))

end Params

/-! ### Pools and their edges -/

/-- Ids by id: the parents of a transaction, or the transactions that spend it. -/
abbrev TransactionsEdges :=
  OrdMap Hash (Finset Hash)

/-- The ids related to one; none if it has no entry. -/
def TransactionsEdges.of (edges : TransactionsEdges) (id : Hash) : Finset Hash :=
  (edges.get? id).getD ∅

/-- The pool transactions whose outputs a transaction spends. -/
def getParentTransactionIdsInPool (all : OrdMap Hash MempoolTransaction)
    (m : MutableTransaction) : Finset Hash :=
  (m.spentIds.filter all.contains).toFinset

/-- What the edges of one transaction lead to inside the pool, in walking order. -/
def redeemersOf (all : OrdMap Hash MempoolTransaction) (chained : TransactionsEdges) (id : Hash) :
    List Hash :=
  (P.members (chained.of id)).filter all.contains

/-- The transactions directly and indirectly chained to one, breadth first. Every transaction of
the pool enters the queue at most once, so one round more than there are transactions empties
it. -/
def getRedeemerIdsInPool (all : OrdMap Hash MempoolTransaction) (chained : TransactionsEdges)
    (id : Hash) : List Hash :=
  if all.contains id then
    Worklist.traverse (redeemersOf P all chained) (all.size + 1) [id] []
  else []

/-- One pool transaction is chained to another. -/
def ChainedTo (all : OrdMap Hash MempoolTransaction) (chained : TransactionsEdges) (a b : Hash) :
    Prop :=
  b ∈ chained.of a ∧ all.contains b = true

theorem mem_redeemersOf {all : OrdMap Hash MempoolTransaction} {chained : TransactionsEdges}
    {a b : Hash} : b ∈ redeemersOf P all chained a ↔ ChainedTo all chained a b := by
  rw [redeemersOf, mem_filter, Params.mem_members, ChainedTo]

/-- **The redeemers of a pool transaction** are what its chained edges lead to. -/
theorem mem_redeemerIdsInPool {all : OrdMap Hash MempoolTransaction}
    {chained : TransactionsEdges} {a b : Hash} (ha : all.contains a = true) :
    b ∈ getRedeemerIdsInPool P all chained a ↔
      Relation.TransGen (ChainedTo all chained) a b := by
  have hstep : Worklist.Step (redeemersOf P all chained) = ChainedTo all chained := by
    funext x y
    exact propext (mem_redeemersOf P)
  rw [getRedeemerIdsInPool, if_pos ha, ← hstep]
  have hnodes : ∀ x, redeemersOf P all chained x ⊆ all.keys := by
    intro x y hy
    obtain ⟨v, hv⟩ := Option.isSome_iff_exists.mp ((mem_redeemersOf P).mp hy).2
    exact OrdMap.mem_keys_iff.mpr ⟨v, hv⟩
  have hready : Worklist.Ready all.keys (all.size + 1) [a] [] :=
    ⟨nil_subset _, nodup_nil, by rw [OrdMap.length_keys, length_singleton, add_comm, length_nil]⟩
  simpa using Worklist.mem_traverse_iff hnodes hready nofun

/-! ### The pool -/

variable [LinearOrder F]

/-- The transaction pool. The unspent outputs of pool transactions are left out: they are written
and never read. -/
structure TransactionsPool (F : Type) [LinearOrder F] where
  allTransactions : OrdMap Hash MempoolTransaction := OrdMap.empty
  /-- The pool transactions a transaction spends from. -/
  parentTransactions : TransactionsEdges := OrdMap.empty
  /-- The pool transactions that spend from a transaction. -/
  chainedTransactions : TransactionsEdges := OrdMap.empty
  /-- The frontier, in ascending order of weight. -/
  readyTransactions : OrdMap (FeerateKey F) Unit := OrdMap.empty
  estimatedSize : ℕ := 0
  /-- The pool transaction that spends an outpoint. -/
  outpointOwnerId : OrdMap TransactionOutpoint Hash := OrdMap.empty
  lastExpireScanDaaScore : ℕ := 0
  lastExpireScanTime : ℕ := 0

/-- Adds an id to the sets of some others. -/
def TransactionsEdges.insertInto (edges : TransactionsEdges) (ids : Finset Hash) (id : Hash) :
    TransactionsEdges :=
  (ids.sort (· ≤ ·)).foldl (fun m k => m.insert k (insert id (m.of k))) edges

/-- Takes an id out of the sets of some others, where they have an entry. -/
def TransactionsEdges.eraseFrom (edges : TransactionsEdges) (ids : Finset Hash) (id : Hash) :
    TransactionsEdges :=
  edges.map fun k s => if k ∈ ids then s.erase id else s

/-- A double spend: the outpoint and the pool transaction that spends it. -/
structure DoubleSpend where
  outpoint : TransactionOutpoint
  ownerId : Hash

/-- The error a double spend is reported with. -/
def DoubleSpend.toError (d : DoubleSpend) : RuleError :=
  .rejectDoubleSpendInMempool d.outpoint d.ownerId

namespace TransactionsPool

variable (pool : TransactionsPool F)

def has (id : Hash) : Bool :=
  pool.allTransactions.contains id

def get (id : Hash) : Option MempoolTransaction :=
  pool.allTransactions.get? id

def len : ℕ :=
  pool.allTransactions.size

/-- The pool transactions whose outputs a transaction spends. -/
def parentIds (m : MutableTransaction) : Finset Hash :=
  getParentTransactionIdsInPool pool.allTransactions m

/-- The pool transactions directly and indirectly chained to one. -/
def redeemerIds (id : Hash) : List Hash :=
  getRedeemerIdsInPool P pool.allTransactions pool.chainedTransactions id

/-- The frontier with a transaction, if it has no parent in the pool. -/
def readyWith (m : MutableTransaction) : Option (OrdMap (FeerateKey F) Unit) :=
  if pool.parentIds m = ∅ then
    (P.feerateKey m).map fun key => pool.readyTransactions.insert key ()
  else some pool.readyTransactions

/-- Adds a transaction with the edges to its parents. The edges to transactions that spend it are
not looked for. A panic if it is in the pool or not fully populated. -/
def addMempoolTransaction (tx : MempoolTransaction) (transactionSize : ℕ) :
    Option (TransactionsPool F) :=
  let id := P.idOf tx.mtx
  let parents := pool.parentIds tx.mtx
  if pool.has id || !tx.mtx.isFullyPopulated then none
  else (pool.readyWith P tx.mtx).map fun ready =>
    { pool with
      parentTransactions := pool.parentTransactions.insert id parents
      readyTransactions := ready
      chainedTransactions := pool.chainedTransactions.insertInto parents id
      outpointOwnerId := tx.mtx.tx.inputs.foldl
        (fun owners input => owners.insert input.previousOutpoint id) pool.outpointOwnerId
      estimatedSize := pool.estimatedSize + transactionSize
      allTransactions := pool.allTransactions.insert id tx }

/-- The chained relation once a transaction is taken out of the sets of its parents. -/
def chainedWithout (id : Hash) : TransactionsEdges :=
  pool.chainedTransactions.eraseFrom (pool.parentTransactions.of id) id

/-- The parent relation once a transaction is taken out of the sets of those chained to it. -/
def parentsWithout (id : Hash) : TransactionsEdges :=
  pool.parentTransactions.eraseFrom ((pool.chainedWithout id).of id) id

/-- The transactions that have no parent any more. -/
def freedBy (id : Hash) : Finset Hash :=
  ((pool.chainedWithout id).of id).filter fun child => (pool.parentsWithout id).get? child = some ∅

/-- The keys of some transactions; a panic if one is not in the pool. -/
def keysOf (ids : Finset Hash) : Option (List (FeerateKey F)) :=
  (ids.sort (· ≤ ·)).mapM fun id => (pool.get id).bind fun tx => P.feerateKey tx.mtx

/-- Takes a transaction out of both relations. The transactions that have no parent any more are
ready. -/
def unlink (id : Hash) : Option (TransactionsPool F) :=
  (pool.keysOf P (pool.freedBy id)).map fun keys =>
    { pool with
      chainedTransactions := (pool.chainedWithout id).erase id
      parentTransactions := (pool.parentsWithout id).erase id
      readyTransactions := keys.foldl (fun ready key => ready.insert key ())
        pool.readyTransactions }

/-- Takes a transaction out of everything but the relations. A panic if the sizes do not add up. -/
def takeOut (id : Hash) (removedTx : MempoolTransaction) : Option (TransactionsPool F) := do
  let key ← P.feerateKey removedTx.mtx
  let size ← Checked.sub pool.estimatedSize (P.mempoolEstimatedBytes removedTx.mtx)
  if (pool.allTransactions.erase id).size = 0 ∧ size ≠ 0 then none
  else some { pool with
    allTransactions := pool.allTransactions.erase id
    readyTransactions := pool.readyTransactions.erase key
    outpointOwnerId := removedTx.mtx.tx.inputs.foldl
      (fun owners input => owners.erase input.previousOutpoint) pool.outpointOwnerId
    estimatedSize := size }

/-- Removes a transaction. The relations are changed even if the transaction is missing. -/
def removeTransaction (id : Hash) : Action (TransactionsPool F) RuleError MempoolTransaction :=
  fun pool => (pool.unlink P id).bind fun unlinked =>
    match pool.get id with
    | none => some (.error (.rejectMissingTransaction id), unlinked)
    | some removedTx =>
      (unlinked.takeOut P id removedTx).map fun removed => (.ok removedTx, removed)

/-- Replaces a transaction that was validated again, if it is still there. -/
def updateRevalidatedTransaction (m : MutableTransaction) :
    Option (Bool × TransactionsPool F) :=
  match pool.get (P.idOf m) with
  | none => some (false, pool)
  | some tx => do
    let size ← Checked.sub pool.estimatedSize (P.mempoolEstimatedBytes tx.mtx)
    some (true, { pool with
      allTransactions := pool.allTransactions.insert (P.idOf m) { tx with mtx := m }
      estimatedSize := size + P.mempoolEstimatedBytes m })

/-! ### Room in the pool -/

/-- Whether enough room is left once some transactions are removed; the second difference is only
formed if the first fits. -/
def roomWithout (transactionSize : ℕ) (removed : List Hash) (removedSize : ℕ) : Option Bool := do
  let count ← Checked.sub (pool.len + 1) removed.length
  if count ≤ P.maximumTransactionCount then do
    let size ← Checked.sub (pool.estimatedSize + transactionSize) removedSize
    some (decide (size ≤ P.mempoolSizeLimit))
  else some false

/-- Selects ready transactions of low priority in ascending order until there is room. -/
def selectForRemoval (m : MutableTransaction) (transactionSize : ℕ) (feerateThreshold : F) :
    List (FeerateKey F) → List Hash → ℕ → Option (Except RuleError (List Hash))
  | [], _, _ => some (.error .rejectMempoolIsFull)
  | key :: keys, txsToRemove, selectionOverallSize => do
    let id := (ofLex (ofLex key).2).2
    let tx ← pool.get id
    if tx.priority = .high then
      selectForRemoval m transactionSize feerateThreshold keys txsToRemove selectionOverallSize
    else if m.hasParentInSet (pool.redeemerIds P id ++ [id]) then
      selectForRemoval m transactionSize feerateThreshold keys txsToRemove selectionOverallSize
    else do
      let rate ← P.calculatedFeerate tx.mtx
      if P.exceeds rate feerateThreshold then some (.error .rejectMempoolIsFull)
      else do
        let txsToRemove := txsToRemove ++ [id]
        let selectionOverallSize := selectionOverallSize + P.mempoolEstimatedBytes tx.mtx
        if ← pool.roomWithout P transactionSize txsToRemove selectionOverallSize then
          some (.ok txsToRemove)
        else
          selectForRemoval m transactionSize feerateThreshold keys txsToRemove
            selectionOverallSize

/-- Whether a transaction of this size fits as it is. -/
def hasRoom (transactionSize : ℕ) : Bool :=
  decide (pool.len < P.maximumTransactionCount ∧
    pool.estimatedSize + transactionSize ≤ P.mempoolSizeLimit)

/-- The transactions to remove in order to make room for one. -/
def limitTransactionCount (m : MutableTransaction) (transactionSize : ℕ) :
    Option (Except RuleError (List Hash)) :=
  if pool.hasRoom P transactionSize then some (.ok [])
  else do
    let feerateThreshold ← P.calculatedFeerate m
    pool.selectForRemoval P m transactionSize feerateThreshold pool.readyTransactions.keys [] 0

/-! ### Double spends -/

def getOutpointOwnerId (outpoint : TransactionOutpoint) : Option Hash :=
  pool.outpointOwnerId.get? outpoint

/-- The double spend of one input, if another transaction owns its outpoint. -/
def doubleSpendAt (id : Hash) (input : TransactionInput) : Option DoubleSpend :=
  (pool.getOutpointOwnerId input.previousOutpoint).bind fun owner =>
    if owner ≠ id then some ⟨input.previousOutpoint, owner⟩ else none

/-- The first double spend of every pool transaction, in the order of the inputs. -/
def getDoubleSpendTransactionIds (m : MutableTransaction) : List DoubleSpend :=
  (m.tx.inputs.filterMap (pool.doubleSpendAt (P.idOf m))).foldl
    (fun found d => if d.ownerId ∈ found.map DoubleSpend.ownerId then found else found ++ [d]) []

def getFirstDoubleSpend (m : MutableTransaction) : Option DoubleSpend :=
  (m.tx.inputs.filterMap (pool.doubleSpendAt (P.idOf m))).head?

def checkDoubleSpends (m : MutableTransaction) : Except RuleError Unit :=
  match pool.getFirstDoubleSpend P m with
  | some d => .error d.toError
  | none => .ok ()

def getDoubleSpendOwner (d : DoubleSpend) : Except RuleError MempoolTransaction :=
  match pool.get d.ownerId with
  | some tx => .ok tx
  | none => .error d.toError

/-! ### Expiry -/

/-- The low-priority transactions that were added too long ago, if a scan is due. -/
def collectExpiredLowPriorityTransactions (virtualDaaScore now : ℕ) :
    List Hash × TransactionsPool F :=
  if virtualDaaScore < pool.lastExpireScanDaaScore + P.transactionExpireScanIntervalDaaScore ∨
      now < pool.lastExpireScanTime + P.transactionExpireScanIntervalMilliseconds then ([], pool)
  else
    (P.walk ((pool.allTransactions.filter fun _ tx => decide (tx.priority = .low ∧
        tx.addedAtDaaScore + P.transactionExpireIntervalDaaScore < virtualDaaScore)).keys),
      { pool with lastExpireScanDaaScore := virtualDaaScore, lastExpireScanTime := now })

end TransactionsPool

end Mempool

end KeryxNode
