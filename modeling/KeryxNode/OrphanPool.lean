import KeryxNode.TransactionsPool

/-!
# The Orphan Pool

Transactions some of whose coins are not known yet (`mining/src/mempool/model/orphan_pool.rs`).
They wait for a transaction that creates the missing outputs and are indexed by the outpoints
they spend.
-/

namespace KeryxNode

open Tx KeryxNode.Action

namespace Mempool

variable {F : Type} (P : Params F)

/-- The orphans with the edges between them and the owner of every outpoint they spend. -/
structure OrphanPool where
  allOrphans : OrdMap Hash MempoolTransaction := OrdMap.empty
  chainedOrphans : TransactionsEdges := OrdMap.empty
  outpointOwnerId : OrdMap TransactionOutpoint Hash := OrdMap.empty
  lastExpireScan : ℕ := 0

namespace OrphanPool

variable (orphans : OrphanPool)

def has (id : Hash) : Bool :=
  orphans.allOrphans.contains id

/-- The orphan that spends an outpoint. -/
def outpointOrphan (outpoint : TransactionOutpoint) : Option MempoolTransaction :=
  (orphans.outpointOwnerId.get? outpoint).bind orphans.allOrphans.get?

/-- Replaces the orphan that spends an outpoint, if there is one. -/
def modifyOutpointOrphan (outpoint : TransactionOutpoint)
    (f : MempoolTransaction → MutableTransaction) : OrphanPool :=
  match orphans.outpointOwnerId.get? outpoint with
  | none => orphans
  | some owner =>
    match orphans.allOrphans.get? owner with
    | none => orphans
    | some orphan => { orphans with
        allOrphans := orphans.allOrphans.insert owner { orphan with mtx := f orphan } }

/-- The orphans directly and indirectly chained to one. -/
def redeemerIds (id : Hash) : List Hash :=
  getRedeemerIdsInPool P orphans.allOrphans orphans.chainedOrphans id

/-! ### Removal -/

/-- Takes an orphan out of the sets of its parents; a set that becomes empty is dropped. -/
def unchain (parents : Finset Hash) (id : Hash) (chained : TransactionsEdges) :
    TransactionsEdges :=
  (chained.eraseFrom parents id).filter fun k s => !(decide (k ∈ parents) && decide (s = ∅))

/-- Gives up the outpoints of the inputs from an index on. The last one that had no owner is
reported. -/
def disown (id : Hash) : ℕ → List TransactionInput → OrdMap TransactionOutpoint Hash →
    Option RuleError → OrdMap TransactionOutpoint Hash × Option RuleError
  | _, [], owners, error => (owners, error)
  | i, input :: inputs, owners, error =>
    disown id (i + 1) inputs (owners.erase input.previousOutpoint)
      (if owners.contains input.previousOutpoint then error
      else some (.rejectMissingOrphanOutpoint i id input.previousOutpoint))

/-- Removes one orphan. A missing owner of an outpoint is an error, reported at the end. -/
def removeSingleOrphan (id : Hash) : Action OrphanPool RuleError MempoolTransaction :=
  fun orphans =>
    match orphans.allOrphans.get? id with
    | none => some (.error (.rejectMissingOrphanTransaction id), orphans)
    | some tx =>
      let all := orphans.allOrphans.erase id
      let parents := getParentTransactionIdsInPool all tx.mtx
      let (owners, error) := disown (P.idOf tx.mtx) 0 tx.mtx.tx.inputs orphans.outpointOwnerId
        none
      let removed := { orphans with
        allOrphans := all
        chainedOrphans := (unchain parents id orphans.chainedOrphans).erase id
        outpointOwnerId := owners }
      match error with
      | none => some (.ok tx, removed)
      | some e => some (.error e, removed)

/-- Removes an orphan, with those chained to it if asked. -/
def removeOrphan (id : Hash) (removeRedeemers : Bool) :
    Action OrphanPool RuleError (List MempoolTransaction) := do
  let orphans ← get
  if orphans.has id then
    let ids := id :: if removeRedeemers then orphans.redeemerIds P id else []
    ids.mapM (removeSingleOrphan P)
  else return []

/-- Removes the orphans chained to a transaction, which has to be an orphan itself. -/
def removeRedeemersOf (id : Hash) : Action OrphanPool RuleError (List MempoolTransaction) := do
  let redeemers ← read fun orphans => orphans.redeemerIds P id
  redeemers.mapM (removeSingleOrphan P)

/-- Forgets the coins of a removed transaction in the orphans that spend its outputs. -/
def clearEntriesOf (removed : MempoolTransaction) : OrphanPool :=
  (List.range removed.mtx.tx.outputs.length).foldl (fun orphans i =>
    orphans.modifyOutpointOrphan ⟨P.idOf removed.mtx, i⟩ fun orphan =>
      orphan.mtx.mapEntries fun input entry =>
        if input.previousOutpoint.transactionId = P.idOf removed.mtx then none else entry)
    orphans

/-- The orphans that spend a removed transaction are removed or lose the coins of it. -/
def updateOrphansAfterTransactionRemoved (removed : MempoolTransaction) (removeRedeemers : Bool) :
    Action OrphanPool RuleError (List MempoolTransaction) :=
  if removeRedeemers then removeRedeemersOf P (P.idOf removed.mtx)
  else do
    modify fun orphans => orphans.clearEntriesOf P removed
    return []

/-! ### Insertion -/

/-- An orphan of low priority, the first in walking order. -/
def getRandomLowPriorityOrphan : Option Hash :=
  (P.walk orphans.allOrphans.keys).find? fun id =>
    (orphans.allOrphans.get? id).any fun tx => decide (tx.priority = .low)

/-- Removes orphans of low priority until there is room for some more. Every round removes one, so
as many rounds as there are orphans suffice. -/
def limitOrphanPoolSize (freeSlots : ℕ) : ℕ → Action OrphanPool RuleError Unit
  | 0 => return ()
  | rounds + 1 => do
    let orphans ← get
    if P.maximumOrphanTransactionCount < orphans.allOrphans.size + freeSlots then
      match orphans.getRandomLowPriorityOrphan P with
      | none => throw (.rejectOrphanPoolIsFull orphans.allOrphans.size
          P.maximumOrphanTransactionCount)
      | some id => do
        let _ ← removeOrphan P id false
        limitOrphanPoolSize freeSlots rounds
    else return ()

def checkOrphanDuplicate (m : MutableTransaction) : Except RuleError Unit :=
  if orphans.has (P.idOf m) then .error (.rejectDuplicateOrphan (P.idOf m)) else .ok ()

/-- The larger of the masses of an orphan is limited; a panic if they are not known. -/
def checkOrphanMass (m : MutableTransaction) : Option (Except RuleError Unit) :=
  m.calculatedNonContextualMasses.map fun masses =>
    if P.maximumOrphanTransactionMass < max masses.1 masses.2 then
      .error (.rejectBadOrphanMass (max masses.1 masses.2) P.maximumOrphanTransactionMass)
    else .ok ()

/-- No other orphan spends one of the outpoints. -/
def checkOrphanDoubleSpend (m : MutableTransaction) : Except RuleError Unit :=
  m.tx.inputs.forM fun input =>
    match orphans.outpointOrphan input.previousOutpoint with
    | none => .ok ()
    | some orphan =>
      if P.idOf orphan.mtx ≠ P.idOf m then
        .error (.rejectDoubleSpendOrphan (P.idOf m) (P.idOf orphan.mtx))
      else .ok ()

/-- Adds an orphan with the edges to and from the other orphans. -/
def addOrphan (virtualDaaScore : ℕ) (m : MutableTransaction) (priority : Priority) :
    OrphanPool :=
  let id := P.idOf m
  let owners := m.tx.inputs.foldl (fun owners input => owners.insert input.previousOutpoint id)
    orphans.outpointOwnerId
  let incoming := orphans.chainedOrphans.insertInto
    (getParentTransactionIdsInPool orphans.allOrphans m) id
  let outgoing := (List.range m.tx.outputs.length).foldl (fun chained i =>
    match (owners.get? ⟨id, i⟩).bind orphans.allOrphans.get? with
    | none => chained
    | some orphan => chained.insert id (insert (P.idOf orphan.mtx) (chained.of id))) incoming
  { orphans with
    allOrphans := orphans.allOrphans.insert id ⟨m, priority, virtualDaaScore⟩
    chainedOrphans := outgoing
    outpointOwnerId := owners }

/-- Adds an orphan if the pool takes any, after its checks. -/
def tryAddOrphan (virtualDaaScore : ℕ) (m : MutableTransaction) (priority : Priority) :
    Action OrphanPool RuleError Unit := do
  if P.maximumOrphanTransactionCount = 0 then return ()
  else
    let orphans ← get
    ofExcept (orphans.checkOrphanDuplicate P m)
    let mass ← unwrap (checkOrphanMass P m)
    ofExcept mass
    ofExcept (orphans.checkOrphanDoubleSpend P m)
    limitOrphanPoolSize P 1 (orphans.allOrphans.size + 1)
    modify fun orphans => orphans.addOrphan P virtualDaaScore m priority

/-! ### Expiry -/

/-- Removes the low-priority orphans that were added too long ago, if a scan is due. -/
def expireLowPriorityTransactions (virtualDaaScore : ℕ) : Action OrphanPool RuleError Unit := do
  let orphans ← get
  if virtualDaaScore < orphans.lastExpireScan + P.orphanExpireScanIntervalDaaScore then return ()
  else
    let expired := P.walk (orphans.allOrphans.filter fun _ tx => decide (tx.priority = .low ∧
      tx.addedAtDaaScore + P.orphanExpireIntervalDaaScore < virtualDaaScore)).keys
    expired.forM fun id => do
      let _ ← removeOrphan P id false
      return ()
    modify fun orphans => { orphans with lastExpireScan := virtualDaaScore }

end OrphanPool

end Mempool

end KeryxNode
