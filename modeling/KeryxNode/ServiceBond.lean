import KeryxNode.ServiceStores

/-!
# The Service Bond of a Node

The part of the virtual processor that carries the service bond: the ledger synced along the
selected chain (`ServiceLedgerSync`), the fold of one committed chain block, the cold refold,
the advance along a committed chain path with its reorg handling and finality flush, the
reboot, and the verdicts block validation reads.

`advanceServiceLedger` follows `advance_service_ledger` step by step. It returns `none` where
the source panics, which is only inside the undo of a vault. Locks, logging and the set of
logged misses are left out.
-/

namespace KeryxNode

open List

/-! ### State -/

/-- What reverses one folded chain block's vault mutations. -/
structure VaultUndo where
  added : List (Hash × EscrowClaim)
  misses : List ServiceMiss
  expired : List (Hash × EscrowClaim)
  deriving DecidableEq

/-- Ledger state folded along the committed selected chain. -/
structure ServiceLedgerSync where
  ledger : ServiceLedger := {}
  /-- Light snapshots by chain index. -/
  snapshots : OrdMap ℕ LightSnapshot := .empty
  /-- Vault undo entries by chain index. -/
  undo : OrdMap ℕ VaultUndo := .empty
  /-- Chain index the ledger is folded up to. -/
  tip : Option ℕ := none
  /-- Events awaiting finality, chain order. -/
  queue : List QueuedEvent := []
  /-- Highest event score persisted. -/
  deepCursorDaa : ℕ := 0
  deriving DecidableEq

/-- A node: its selected chain, its stores, their mirrors and the synced ledger. -/
structure Node where
  chain : SelectedChain
  stores : ServiceStores := {}
  mirrors : ServiceMirrors := {}
  sync : ServiceLedgerSync := {}
  deriving DecidableEq

/-- Retained snapshots; deeper reorgs refold. -/
def serviceSnapshotCap : ℕ := 4096

/-- What the fold of a chain block reads of the node besides the ledger. -/
structure FoldView where
  chain : SelectedChain
  ownPp : Hash
  mirrors : ServiceMirrors

namespace Network

variable (N : Network)

/-- The activation scores a fold installs on the ledger. -/
def ledgerConfig : LedgerConfig :=
  { windowV2ActivationDaa := some N.serviceBondV2Activation
    burnableWindowDaa := some N.serviceBurnableWindowDaa
    rewardRoutingDaa := some N.rewardRoutingActivation }

/-- Whether `identity` is in standing at `povDaa`. -/
def serviceStandingAt (m : ServiceMirrors) (identity : Hash) (povDaa : ℕ) : Bool :=
  m.standing.standing identity povDaa (decide (N.serviceBondV2Activation ≤ povDaa))

/-! ### Folding one chain block -/

/-- The chain inputs of the fold of `h`; claims already burned are dead on arrival. -/
def foldInput (burned : OrdMap TransactionOutpoint ℕ) (h : Hash) : FoldInput :=
  let daa := N.daaOf h
  let routed := decide (N.rewardRoutingActivation ≤ daa)
  let events := N.serviceEventsOfChainBlock h routed
  { daa
    requests := events.1
    requestRewards := events.2.1
    responses := events.2.2
    escrows := (N.serviceEscrowsOfChainBlock h).filter fun e => !burned.contains e.2.outpoint
    producers := if routed then N.serviceProducerSpksOfChainBlock h else [] }

/-- The eligibility window at a score. -/
def eligibilityWindow (daa : ℕ) : ℕ :=
  if N.serviceBondV2Activation ≤ daa then serviceEligibilityWindowDaaV2
  else serviceEligibilityWindowDaa

/-- The arguments of the fold of `h`. -/
def foldCall (v : FoldView) (h : Hash) : FoldCall :=
  { input := N.foldInput v.mirrors.burned h
    isEstablished := fun id => N.serviceStandingAt v.mirrors id (N.daaOf h)
    cohort := fun tier => N.serviceEligibleMinersIn v.chain v.mirrors.importedProducers h tier
      (N.eligibilityWindow (N.daaOf h)) v.ownPp }

/-- The result of folding one chain block: ledger, outcome, claims added. -/
structure BlockFold where
  ledger : ServiceLedger
  outcome : FoldOutcome := {}
  added : List (Hash × EscrowClaim) := []

/-- Folds one committed chain block; a no-op before `pom_v3_activation`. A warmup fold
evolves request and vault memory only and reports nothing. -/
def foldServiceChainBlock (v : FoldView) (ledger : ServiceLedger) (h : Hash) (warmup : Bool) :
    BlockFold :=
  if N.daaOf h < N.pomV3Activation then { ledger }
  else
    let configured := ledger.configure N.ledgerConfig
    let call := N.foldCall v h
    if warmup then
      { ledger := configured.onChainBlockWarmupWithRewards call.input
          (fun o => v.mirrors.burned.contains o) call.cohort
        added := call.input.escrows }
    else
      let r := configured.onChainBlockWithRewards call.input call.isEstablished call.cohort
      { ledger := r.1, outcome := r.2, added := call.input.escrows }

/-! ### The cold refold -/

/-- The refold baseline: the last log record per miner. -/
def loadStrikeBase (stores : ServiceStores) : OrdMap Hash StrikeEntry :=
  stores.strike.entries.foldl (fun m e => m.insert (ofLex e.1).2 e.2) .empty

/-- The highest persisted sample at or below chain index `target`. -/
def highestSample (v : FoldView) (target : ℕ) : Option (ℕ × Hash) :=
  (v.mirrors.ledgerHashes.keys.filterMap fun h =>
    ((v.chain.getByHash? h).filter fun i => decide (i ≤ target)).map fun i => (i, h)).foldl
    (fun best s => match best with
      | none => some s
      | some b => if b.1 < s.1 ∨ (b.1 = s.1 ∧ b.2 ≤ s.2) then some s else some b) none

/-- The image of a sample, if it is persisted and parses. -/
def restoredSample (stores : ServiceStores) (h : Hash) : Option ServiceLedgerSnapshot :=
  match (stores.ledgerSnapshot.get? h).map ServiceLedgerSnapshot.fromBytes with
  | some (.ok s) => some s
  | _ => none

/-- Where a refold starts: the ledger and the chain index it is the state of. -/
def refoldStart (stores : ServiceStores) (v : FoldView) (target cursorDaa : ℕ) :
    ServiceLedger × ℕ :=
  let targetDaa := N.daaAt v.chain target
  let based := ((({} : ServiceLedger).setBase (loadStrikeBase stores)).setFirstSeenBase
    v.mirrors.standing.firstSeen)
  let start := if 0 < cursorDaa then cursorDaa else targetDaa - N.finalityDepth
  let daaBound := start - N.serviceBurnableWindowDaa
  let pruningIdx := (v.chain.getByHash? v.ownPp).getD 0
  let bottom := N.serviceChainIndexAtOrBelowDaa v.chain daaBound target pruningIdx
  match highestSample v target with
  | none => (based, bottom)
  | some (idx, h) =>
    match restoredSample stores h with
    | none => (based, bottom)
    | some snapshot => (based.restoreSnapshot snapshot, idx)

/-- Folds one chain index of a refold and re-queues its events if it is at or above the
frontier. -/
def refoldBlock (v : FoldView) (cursorDaa : ℕ) (s : ServiceLedger × List QueuedEvent) (i : ℕ) :
    ServiceLedger × List QueuedEvent :=
  match v.chain.getByIndex? i with
  | none => s
  | some h =>
    let daa := N.daaOf h
    let fold := N.foldServiceChainBlock v s.1 h (decide (daa < cursorDaa))
    (fold.ledger,
      if cursorDaa ≤ daa then s.2 ++ fold.outcome.queued i daa else s.2)

/-- Rebuilds the ledger up to chain index `target`: the cold-start and deep-reorg path. -/
def refoldServiceLedger (stores : ServiceStores) (v : FoldView) (target cursorDaa : ℕ) :
    ServiceLedger × List QueuedEvent :=
  match v.chain.getByIndex? target with
  | none => ({}, [])
  | some _ =>
    let start := N.refoldStart stores v target cursorDaa
    (range' (start.2 + 1) (target - start.2)).foldl (N.refoldBlock v cursorDaa) (start.1, [])

end Network

/-! ### Advancing along a chain path -/

namespace ServiceLedgerSync

/-- Drops queued events above the common ancestor. -/
def dropQueueAbove (s : ServiceLedgerSync) (common : ℕ) : ServiceLedgerSync :=
  { s with queue := s.queue.filter fun q => decide (q.index ≤ common) }

/-- Whether the retained snapshots and undo entries reach back to `common`. -/
def undoable (s : ServiceLedgerSync) (common : ℕ) : Bool :=
  s.tip.any fun tip => decide (common ≤ tip) && s.snapshots.contains common &&
    (range' (common + 1) (tip - common)).all fun i => s.undo.contains i

/-- Undoes the vault of one chain index. -/
def undoIndex (s : ServiceLedgerSync) (L : ServiceLedger) (i : ℕ) : Option ServiceLedger :=
  match s.undo.get? i with
  | none => none
  | some u => L.undoVault u.added u.misses u.expired

/-- Walks the ledger back to `common` through the undo log and its light snapshot. -/
def rewind (s : ServiceLedgerSync) (common : ℕ) : Option ServiceLedger :=
  match s.tip, s.snapshots.get? common with
  | some tip, some snap =>
    ((range' (common + 1) (tip - common)).reverse.foldlM s.undoIndex s.ledger).map
      fun L => L.restoreLight snap
  | _, _ => none

/-- Forgets snapshots and undo entries above `common`. -/
def truncate (s : ServiceLedgerSync) (common : ℕ) : ServiceLedgerSync :=
  { s with
    snapshots := s.snapshots.filter fun i _ => decide (i ≤ common)
    undo := s.undo.filter fun i _ => decide (i ≤ common) }

end ServiceLedgerSync

/-- Drops entries from the front of a map until at most `cap` are left. -/
def popFirstTo {V : Type} (cap : ℕ) : List (ℕ × V) → List (ℕ × V)
  | [] => []
  | e :: l => if cap < (e :: l).length then popFirstTo cap l else e :: l

theorem popFirstTo_sublist {V : Type} (cap : ℕ) (l : List (ℕ × V)) :
    (popFirstTo cap l).Sublist l := by
  induction l with
  | nil => exact Sublist.refl _
  | cons e l ih =>
    rw [popFirstTo]
    split
    · exact ih.cons e
    · exact Sublist.refl _

/-- Bounds the size of a map from its low end. -/
def capMap {V : Type} (cap : ℕ) (m : OrdMap ℕ V) : OrdMap ℕ V :=
  ⟨popFirstTo cap m.entries, m.sorted.sublist (popFirstTo_sublist cap m.entries)⟩

namespace Node

variable (N : Network)

/-- The view a fold has of the node. -/
def view (node : Node) (pruningPoint : Hash) : FoldView :=
  { chain := node.chain, ownPp := pruningPoint, mirrors := node.mirrors }

/-- Brings the synced ledger to the common ancestor: nothing to do on an extension, the undo
log on a reorg it covers, a refold otherwise. -/
def syncTo (node : Node) (common : ℕ) (pruningPoint : Hash) : Option ServiceLedgerSync :=
  let s := node.sync.dropQueueAbove common
  if s.tip = some common then some s
  else if s.undoable common then (s.rewind common).map fun ledger => { s with ledger }
  else
    let r := N.refoldServiceLedger node.stores (node.view pruningPoint) common s.deepCursorDaa
    some { s with ledger := r.1, queue := r.2 }

/-- Forgets the persisted image of a removed block. -/
def dropSample (node : Node) (h : Hash) : Node :=
  if node.mirrors.ledgerHashes.contains h then
    { node with
      mirrors := { node.mirrors with ledgerHashes := node.mirrors.ledgerHashes.erase h }
      stores := { node.stores with ledgerSnapshot := node.stores.ledgerSnapshot.erase h } }
  else node

/-- Forgets the persisted images of removed blocks. -/
def dropSamples (removed : List Hash) (node : Node) : Node :=
  removed.foldl dropSample node

/-- Persists the image of the ledger at a sample block. -/
def takeSample (node : Node) (idx : ℕ) (h : Hash) : Node :=
  let snapshot := { node.sync.ledger.snapshot with
    recentProducers := N.recentProducersBelow node.chain (N.daaOf h) idx }
  let bytes := snapshot.toBytes
  { node with
    mirrors := { node.mirrors with
      ledgerHashes := node.mirrors.ledgerHashes.insert h (N.hashOfBytes bytes) }
    stores := { node.stores with
      ledgerSnapshot := node.stores.ledgerSnapshot.insert h bytes } }

/-- Folds one added block: ledger, undo entry, queue, light snapshot, sample. -/
def foldAdded (pruningPoint : Hash) (node : Node) (b : ℕ × Hash) : Node :=
  let daa := N.daaOf b.2
  let warmup := decide (daa < node.sync.deepCursorDaa)
  let fold := N.foldServiceChainBlock (node.view pruningPoint) node.sync.ledger b.2 warmup
  let undo : VaultUndo :=
    { added := fold.added, misses := fold.outcome.misses, expired := fold.outcome.expired }
  let folded := { node with sync := { node.sync with
    ledger := fold.ledger
    undo := node.sync.undo.insert b.1 undo
    queue := node.sync.queue ++ fold.outcome.queued b.1 daa
    snapshots := node.sync.snapshots.insert b.1 fold.ledger.lightSnapshot } }
  if N.isPruningSampleBlock b.2 then folded.takeSample N b.1 b.2 else folded

/-- Drops sample images more than one finality depth below the pruning point. -/
def gcServiceLedgerSnapshots (pruningPoint : Hash) (node : Node) : Node :=
  let floor := (N.block pruningPoint).blueScore - N.finalityDepth
  let kept := fun h : Hash => decide (floor ≤ (N.block h).blueScore)
  let stale := fun h : Hash => node.mirrors.ledgerHashes.contains h && !kept h
  { node with
    mirrors := { node.mirrors with
      ledgerHashes := node.mirrors.ledgerHashes.filter fun h _ => kept h }
    stores := { node.stores with
      ledgerSnapshot := node.stores.ledgerSnapshot.filter fun h _ => !stale h } }

/-- Bounds the retained snapshots and undo entries. -/
def capSync (node : Node) : Node :=
  { node with sync := { node.sync with
      snapshots := capMap serviceSnapshotCap node.sync.snapshots
      undo := capMap serviceSnapshotCap node.sync.undo } }

/-- Persists the events that are finality-deep below a tip of score `tipDaa`. -/
def flushQueue (tipDaa : ℕ) (node : Node) : Node :=
  let final := fun q : QueuedEvent => decide (q.daa + N.finalityDepth ≤ tipDaa)
  let flushed := FlushState.flush N
    { stores := node.stores, mirrors := node.mirrors, deepCursorDaa := node.sync.deepCursorDaa }
    (node.sync.queue.takeWhile final)
  { node with
    stores := flushed.stores
    mirrors := flushed.mirrors
    sync := { node.sync with
      queue := node.sync.queue.dropWhile final
      deepCursorDaa := flushed.deepCursorDaa } }

/-- The added blocks of a path with their chain indices. -/
def indexed (common : ℕ) (added : List Hash) : List (ℕ × Hash) :=
  added.zipIdx.map fun p => (common + 1 + p.2, p.1)

/-- The node once the ledger is synced to the common ancestor: folds the added blocks, bounds
the logs, moves the tip. -/
def foldPath (path : ChainPath) (pruningPoint : Hash) (common : ℕ) (node : Node) : Node :=
  let folded := (indexed common path.added).foldl (foldAdded N pruningPoint)
    (node.dropSamples path.removed)
  let collected := if path.added.any N.isPruningSampleBlock
    then folded.gcServiceLedgerSnapshots N pruningPoint else folded
  let capped := collected.capSync
  { capped with sync := { capped.sync with tip := some (common + path.added.length) } }

/-- Advances the service ledger along the committed chain path. The selected chain already
reflects the new chain. -/
def advanceServiceLedger (path : ChainPath) (pruningPoint : Hash) (node : Node) : Option Node :=
  match node.chain.getTip? with
  | none => none
  | some (tipIdx, tipHash) =>
    if N.daaOf tipHash < N.pomV3Activation then some node
    else
      let common := tipIdx - path.added.length
      (node.syncTo N common pruningPoint).map fun sync =>
        ({ node with sync := sync.truncate common }.foldPath N path pruningPoint
          common).flushQueue N (N.daaOf tipHash)

/-- Commits a chain path and advances the service ledger along it: one `resolve_virtual`. -/
def resolveVirtual (path : ChainPath) (pruningPoint : Hash) (node : Node) : Option Node :=
  { node with chain := node.chain.applyChanges path }.advanceServiceLedger N path pruningPoint

/-- Stops the process and boots it again from the stores. -/
def reboot (pruningPoint : Hash) (node : Node) : Node :=
  let loaded := loadServiceBurned N node.stores pruningPoint
  { chain := node.chain, stores := node.stores, mirrors := loaded.1
    sync := { deepCursorDaa := loaded.2 } }

end Node

/-! ### Verdicts of block validation -/

namespace Network

variable (N : Network) (m : ServiceMirrors)

/-- The wins of the scores in `(lo, hi]` with a payout script, in score order and by request
hash within a score. -/
def rewardWins (lo hi : ℕ) : List (Hash × ℕ × ScriptPublicKey) :=
  (m.rewardRecent.entries.filter fun e => decide (lo < e.1 ∧ e.1 ≤ hi)).flatMap fun e =>
    (e.2.filterMap fun w => w.2.2.map fun spk => (w.1, w.2.1, spk)).insertionSort
      fun a b => a.1 ≤ b.1

/-- Coinbase mints expected of a block whose selected parent is `sp`: the wins finalized
exactly by the fold of `sp`. -/
def serviceRewardMintsFor (sp : Hash) : List (ScriptPublicKey × ℕ) :=
  let spDaa := N.daaOf sp
  if spDaa < N.rewardRoutingActivation then []
  else
    let parentDaa := (((N.block sp).selectedParent).map N.daaOf).getD 0
    let lo := parentDaa - N.finalityDepth
    let hi := spDaa - N.finalityDepth
    if hi ≤ lo then []
    else ((rewardWins m lo hi).take maxRewardMintsPerBlock).map fun w => (w.2.2, w.2.1)

end Network

end KeryxNode
