import KeryxNode.LiveRun

/-!
# Commits of a Live Node

A run of a node is a list of commits: at each one the chain store may have been pruned further,
and the selected chain moves along a path. `LiveStep` says when a commit keeps the persisted
rows a function of the chain: a reorg forks off a block that is not below the persisted
frontier and that the undo log reaches. In such a run, from a node that has folded nothing yet,
what boot would load from the stores is at every time what the node holds in memory.

## Main results

* `boot_reload_live`: after such a run a reboot finds the mirrors, the frontier and the
  commitments of the live node.
* `boot_reload_reorged`: a reorg that forks below the frontier leaves a mirror boot does not load.
-/

namespace KeryxNode

open BondBook List Node FoldRecord

variable {step : ChainStep} {N : Network} {node : Node}

/-! ### Commits -/

/-- One commit: the path of the selected chain, the pruning point the node holds, and the lowest
chain index its chain store still has. -/
structure ChainStep where
  path : ChainPath
  pruningPoint : Hash := 0
  retained : ℕ := 0

namespace Node

/-- The node once its chain store is pruned. -/
def prune (retained : ℕ) (node : Node) : Node :=
  { node with chain := { node.chain with retained } }

/-- One commit. -/
def commit (N : Network) (node : Node) (step : ChainStep) : Option Node :=
  (node.prune step.retained).resolveVirtual N step.path step.pruningPoint

/-- A run of commits. -/
def commitAll (N : Network) (node : Node) (steps : List ChainStep) : Option Node :=
  steps.foldlM (commit N) node

/-- The chain index of the block a path forks off. -/
def forkIndex (node : Node) (path : ChainPath) : ℕ :=
  node.chain.hashes.length - 1 - path.removed.length

end Node

/-- A commit that keeps the rows a function of the chain. It forks off a retained block; a reorg
is covered by the undo log and forks off at or above the frontier; a node that folds never falls
back below `pom_v3_activation`; the new chain is well formed. -/
@[mk_iff]
structure LiveStep (N : Network) (node : Node) (step : ChainStep) : Prop where
  removed_lt : step.path.removed.length < node.chain.hashes.length
  retained : step.retained ≤ node.forkIndex step.path
  covered : step.path.removed = [] ∨ node.sync.tip = none ∨
    node.sync.undoable (node.forkIndex step.path) = true
  frontier : step.path.removed ≠ [] → ∀ h ∈ node.chain.hashes[node.forkIndex step.path]?,
    node.sync.deepCursorDaa ≤ N.daaOf h
  active : node.sync.tip ≠ none →
    ∀ h ∈ (node.chain.applyChanges step.path).hashes.getLast?, N.pomV3Activation ≤ N.daaOf h
  chain : ChainFacts N (node.chain.applyChanges step.path).hashes

-- Hashes are a finite type, so the test over an optional block is spelled out.
instance (N : Network) (node : Node) (step : ChainStep) : Decidable (LiveStep N node step) :=
  decidable_of_iff
    (step.path.removed.length < node.chain.hashes.length ∧
      step.retained ≤ node.forkIndex step.path ∧
      (step.path.removed = [] ∨ node.sync.tip = none ∨
        node.sync.undoable (node.forkIndex step.path) = true) ∧
      (step.path.removed ≠ [] → (node.chain.hashes[node.forkIndex step.path]?).all
        (fun h => decide (node.sync.deepCursorDaa ≤ N.daaOf h)) = true) ∧
      (node.sync.tip ≠ none → ((node.chain.applyChanges step.path).hashes.getLast?).all
        (fun h => decide (N.pomV3Activation ≤ N.daaOf h)) = true) ∧
      ChainFacts N (node.chain.applyChanges step.path).hashes)
    (by simp only [liveStep_iff, Option.mem_def, Option.all_eq_true, decide_eq_true_eq])

/-- The chain a commit leaves in the store. -/
def Node.committedChain (node : Node) (step : ChainStep) : SelectedChain :=
  (node.prune step.retained).chain.applyChanges step.path

theorem Node.hashes_committedChain (node : Node) (step : ChainStep) :
    (node.committedChain step).hashes = node.chain.hashes.take
      (node.chain.hashes.length - step.path.removed.length) ++ step.path.added := rfl

/-- The new chain: the old one up to the fork, then the added blocks. -/
theorem LiveStep.hashes (h : LiveStep N node step) :
    (node.committedChain step).hashes
        = node.chain.hashes.take (node.forkIndex step.path + 1) ++ step.path.added ∧
      (node.chain.hashes.take (node.forkIndex step.path + 1)).length
        = node.forkIndex step.path + 1 := by
  have hlt := h.removed_lt
  have htake : node.chain.hashes.length - step.path.removed.length
      = node.forkIndex step.path + 1 := by
    rw [forkIndex]
    omega
  rw [hashes_committedChain, htake, length_take]
  exact ⟨rfl, by omega⟩

/-- The tip of the new chain is found. -/
theorem LiveStep.getTip? (h : LiveStep N node step) :
    (node.committedChain step).hashes.length
        = node.forkIndex step.path + step.path.added.length + 1 ∧
      ∃ tipHash, (node.committedChain step).hashes.getLast? = some tipHash ∧
        (node.committedChain step).getTip?
          = some (node.forkIndex step.path + step.path.added.length, tipHash) := by
  obtain ⟨hhashes, htake⟩ := h.hashes
  have hlen : (node.committedChain step).hashes.length
      = node.forkIndex step.path + step.path.added.length + 1 := by
    rw [hhashes, length_append, htake, Nat.add_right_comm]
  exact ⟨hlen, SelectedChain.getTip?_eq_some _ hlen (h.retained.trans (Nat.le_add_right _ _))⟩

/-- A run all of whose commits are such. -/
def LiveRun (N : Network) : Node → List ChainStep → Prop
  | _, [] => True
  | node, step :: steps =>
    LiveStep N node step ∧ ∀ node' ∈ node.commit N step, LiveRun N node' steps

instance decidableLiveRun (N : Network) :
    ∀ (node : Node) (steps : List ChainStep), Decidable (LiveRun N node steps)
  | _, [] => inferInstanceAs (Decidable True)
  | node, step :: steps =>
    have := fun node' => decidableLiveRun N node' steps
    inferInstanceAs (Decidable (LiveStep N node step ∧
      ∀ node' ∈ node.commit N step, LiveRun N node' steps))

/-! ### Recorded runs -/

/-- The records of the folded chain after a commit: those of removed blocks are popped, those of
added ones pushed; below the activation nothing is folded. -/
def Node.recordsAfter (N : Network) (node : Node) (recs : List FoldRecord) (step : ChainStep) :
    List FoldRecord :=
  if (node.committedChain step).hashes.getLast?.any
      (fun h => decide (N.daaOf h < N.pomV3Activation)) then recs
  else nextRecords N (node.prune step.retained) recs step.path step.pruningPoint

/-- One commit, beside the records of the folded chain. -/
def commitLogged (N : Network) (s : Node × List FoldRecord) (step : ChainStep) :
    Option (Node × List FoldRecord) :=
  (s.1.commit N step).map fun node => (node, s.1.recordsAfter N s.2 step)

/-- A run of commits, beside the records of the folded chain. -/
def commitAllLogged (N : Network) (s : Node × List FoldRecord) (steps : List ChainStep) :
    Option (Node × List FoldRecord) :=
  steps.foldlM (commitLogged N) s

/-- The records are no part of the run. -/
theorem commitAll_eq (N : Network) (steps : List ChainStep) :
    ∀ s : Node × List FoldRecord,
      s.1.commitAll N steps = (commitAllLogged N s steps).map Prod.fst := by
  induction steps with
  | nil => exact fun _ => rfl
  | cons step steps ih =>
    intro s
    rw [commitAll, commitAllLogged, foldlM_cons, foldlM_cons, commitLogged]
    cases s.1.commit N step with
    | none => rfl
    | some node => exact ih (node, s.1.recordsAfter N s.2 step)

/-- At an active tip the stack moves along the path. -/
theorem Node.recordsAfter_of_active {recs : List FoldRecord} {tipHash : Hash}
    (htip : (node.committedChain step).hashes.getLast? = some tipHash)
    (hactive : N.pomV3Activation ≤ N.daaOf tipHash) :
    node.recordsAfter N recs step
      = nextRecords N (node.prune step.retained) recs step.path step.pruningPoint := by
  rw [recordsAfter, htip, if_neg]
  rw [Option.any_some, decide_eq_true_eq]
  exact not_lt.mpr hactive

/-! ### A node that folds -/

/-- The invariant of a live node: it is synced with a stack of normal records, which are the
blocks of its well-formed chain above the one its ledger started at. -/
structure Lived (N : Network) (base : ℕ) (node : Node) (recs : List FoldRecord) (j : ℕ) : Prop
    extends Synced N base node recs j where
  tip : node.sync.tip = some (base + recs.length)
  length : node.chain.hashes.length = base + recs.length + 1
  hashes : node.chain.hashes.drop (base + 1) = recs.map hash
  facts : StackFacts N recs
  chain : ChainFacts N node.chain.hashes

namespace Lived

variable {N : Network} {base j : ℕ} {node : Node} {recs : List FoldRecord} {step : ChainStep}

/-- A node synced below the blocks a path has added to its chain is live once these are folded
and flushed. -/
theorem of_synced (h : Synced N base node recs j) (path : ChainPath) (pp : Hash) (bound : ℕ)
    (hlength : node.chain.hashes.length = base + recs.length + path.added.length + 1)
    (hhashes : node.chain.hashes.drop (base + 1) = recs.map hash ++ path.added)
    (hnormal : ∀ r ∈ recs ++ Synced.batch N node pp path.added, r.warmup = false)
    (hchain : ChainFacts N node.chain.hashes) :
    ∃ j', Lived N base ((node.foldPath N path pp (base + recs.length)).flushQueue N bound)
      (recs ++ Synced.batch N node pp path.added) j' := by
  have hdrop : node.chain.hashes.drop (base + 1)
      = (recs ++ Synced.batch N node pp path.added).map hash := by
    rw [hhashes, map_append, Synced.batch, map_map]
    exact congrArg (recs.map hash ++ ·) (map_id _).symm
  have hlen : (recs ++ Synced.batch N node pp path.added).length
      = recs.length + path.added.length := by
    rw [length_append, Synced.batch, length_map]
  have hsame : ((node.foldPath N path pp (base + recs.length)).flushQueue N bound).chain
      = node.chain := chain_foldPath N path pp _ node
  have hfacts := StackFacts.of_chain hchain hdrop hnormal
  obtain ⟨j', -, hflushed⟩ := (h.foldPath path pp).flushQueue hfacts bound
  refine ⟨j', { hflushed with
    tip := ?_
    length := ?_
    hashes := ?_
    facts := hfacts
    chain := ?_ }⟩
  · rw [hlen, ← Nat.add_assoc]
    rfl
  · rw [hsame, hlength, hlen, Nat.add_assoc base]
  · rw [hsame, hdrop]
  · rwa [hsame]

section

variable (h : Lived N base node recs j)
include h

theorem syncLog : SyncLog N base {} node recs :=
  ⟨h.logged, h.tip, h.length, h.hashes⟩

/-- The frontier is not above the flushed blocks. -/
theorem cursor_le {d : ℕ} (hd : ∀ r ∈ recs.take j, N.daaOf r.hash ≤ d) :
    node.sync.deepCursorDaa ≤ d := by
  have hfrontier : node.sync.deepCursorDaa = frontierOf node.stores.rows := h.inStep.frontier
  rw [hfrontier, frontierOf_le_iff]
  intro w hw
  obtain ⟨t, hbound, hacc⟩ := (h.facts.sublist (take_sublist j recs)).accounted
  have hrows : w ∈ (({} : ServiceStores).writeAll (writes N {} (recs.take j))).rows := by
    rw [← h.rows]
    exact hw
  have ht : t ≤ d + 1 := hbound (d + 1) fun r hr => Nat.lt_succ_of_le (hd r hr)
  exact Nat.le_of_lt_succ ((hacc.later w hrows).trans_le ht)

/-- The record at a height is the chain block above the base. -/
theorem getElem_chain {k : ℕ} {r : FoldRecord} (hr : recs[k]? = some r) :
    ∃ hk : base + 1 + k < node.chain.hashes.length, node.chain.hashes[base + 1 + k] = r.hash := by
  rw [← getElem?_eq_some_iff, ← getElem?_drop, h.hashes, getElem?_map, hr, Option.map_some]

/-- A live step removes blocks of the stack only, down to the block it forks off. -/
theorem fork (hstep : LiveStep N node step) :
    step.path.removed.length ≤ recs.length ∧
      node.forkIndex step.path = base + (recs.length - step.path.removed.length) := by
  have hlen := h.length
  have hindex : node.forkIndex step.path = base + recs.length - step.path.removed.length := by
    rw [forkIndex, hlen, Nat.add_sub_cancel]
  have hle : step.path.removed.length ≤ recs.length := by
    rcases hstep.covered with hnil | hnone | hcov
    · rw [hnil]
      exact Nat.zero_le _
    · rw [h.tip] at hnone
      cases hnone
    · -- The snapshot the undo log needs lies above the base.
      simp only [ServiceLedgerSync.undoable, h.tip, Option.any_some, Bool.and_eq_true,
        OrdMap.contains_eq_true] at hcov
      obtain ⟨⟨-, snap, hsnap⟩, -⟩ := hcov
      have := h.snapshots _ snap hsnap
      omega
  exact ⟨hle, by omega⟩

/-- The block a live step forks off: the frontier is at or below it, the added blocks are above
it, and so are the removed ones. -/
theorem forkBlock (hstep : LiveStep N node step) :
    ∃ f, node.sync.deepCursorDaa ≤ N.daaOf f ∧ (∀ a ∈ step.path.added, N.daaOf f < N.daaOf a) ∧
      ∀ k r, recs.length - step.path.removed.length ≤ k → recs[k]? = some r →
        N.daaOf f < N.daaOf r.hash := by
  obtain ⟨hle, hindex⟩ := h.fork hstep
  have hlen := h.length
  set k := recs.length - step.path.removed.length with hk
  have hlt : base + k < node.chain.hashes.length := by omega
  have hfork : node.chain.hashes[base + k]? = some node.chain.hashes[base + k] :=
    getElem?_eq_getElem hlt
  have habove : ∀ i r, k ≤ i → recs[i]? = some r →
      N.daaOf node.chain.hashes[base + k] < N.daaOf r.hash := by
    intro i r hi hr
    obtain ⟨hlt', heq⟩ := h.getElem_chain hr
    have := pairwise_iff_getElem.mp h.chain.increasing (base + k) (base + 1 + i) hlt hlt'
      (by omega)
    rwa [heq] at this
  refine ⟨node.chain.hashes[base + k], ?_, ?_, habove⟩
  · by_cases hnil : step.path.removed = []
    · -- An extension forks off the tip.
      refine h.cursor_le fun r hr => ?_
      obtain ⟨i, hi⟩ := mem_iff_getElem?.mp (mem_of_mem_take hr)
      obtain ⟨hlt', heq⟩ := h.getElem_chain hi
      have hkall : k = recs.length := by rw [hk, hnil, length_nil, Nat.sub_zero]
      rcases (show base + 1 + i ≤ base + k by omega).lt_or_eq with hlow | htop
      · have := pairwise_iff_getElem.mp h.chain.increasing _ _ hlt' hlt hlow
        rw [heq] at this
        exact this.le
      · rw [← heq]
        simp only [htop, le_refl]
    · refine hstep.frontier hnil _ ?_
      rw [hindex]
      exact hfork
  · intro a ha
    have hnew := hstep.chain.increasing
    refine (pairwise_append.mp hnew).2.2 _ ?_ a ha
    exact mem_take_iff_getElem.mpr ⟨base + k, by omega, rfl⟩

/-- Pruning the chain store is none of the ledger's business. -/
theorem prune (retained : ℕ) :
    Lived N base (node.prune retained) recs j :=
  { h with }

section

variable (hstep : LiveStep N node step)
include hstep

/-- A live step is one the undo log covers. -/
theorem coveredStep :
    CoveredStep N base {} (node.prune step.retained) recs step.path := by
  obtain ⟨hle, hindex⟩ := h.fork hstep
  refine ⟨hle, ?_, ?_, hstep.active (by rw [h.tip]; exact Option.some_ne_none _), ?_⟩
  · rw [← hindex]
    exact hstep.retained
  · rcases hstep.covered with hnil | hnone | hcov
    · exact .inl hnil
    · rw [h.tip] at hnone
      cases hnone
    · rw [hindex] at hcov
      exact .inr hcov
  · intro i r _ hr hwarmup
    rw [h.facts.normal r (mem_of_getElem? hr)] at hwarmup
    cases hwarmup

/-- Nothing above the fork is flushed. -/
theorem flushed_le_fork :
    j ≤ recs.length - step.path.removed.length := by
  obtain ⟨f, hcursor, -, habove⟩ := h.forkBlock hstep
  by_contra hlt
  have hk : recs.length - step.path.removed.length < recs.length := by
    have := h.flushed
    omega
  have hr := getElem?_eq_getElem hk
  have hmem : recs[recs.length - step.path.removed.length] ∈ recs.take j :=
    mem_take_iff_getElem.mpr ⟨_, by omega, rfl⟩
  have := habove _ _ le_rfl hr
  have := h.passed _ hmem
  omega

/-- Walked back to the fork, the node is synced with the records below it. -/
theorem rewound {s : ServiceLedgerSync} (chain : SelectedChain)
    (hlog : Logged N base {} s (recs.take (recs.length - step.path.removed.length)))
    (hcursor : s.deepCursorDaa = node.sync.deepCursorDaa)
    (hqueue : s.queue = (node.sync.dropQueueAbove
      (base + (recs.length - step.path.removed.length))).queue)
    (hsnap : ∀ i snap, s.snapshots.get? i = some snap →
      node.sync.snapshots.get? i = some snap) :
    Synced N base { node with chain, sync := s }
      (recs.take (recs.length - step.path.removed.length)) j := by
  have hj := h.flushed_le_fork hstep
  set k := recs.length - step.path.removed.length
  have htake : (recs.take k).take j = recs.take j := by rw [take_take, min_eq_left hj]
  refine ⟨hlog, ?_, ?_, ?_, ?_, ?_, fun i snap hi => h.snapshots i snap (hsnap i snap hi)⟩
  · rw [length_take]
    exact le_min hj h.flushed
  · have hfilter := filter_events (N := N) (base + j) (k - j)
      (replay N {} (recs.take j)) (recs.drop j)
    rw [show base + j + (k - j) = base + k by omega, ← h.queue] at hfilter
    rw [htake, drop_take]
    exact hqueue.trans hfilter
  · rw [htake]
    exact h.rows
  · have hstate : ({ node with chain, sync := s } : Node).flushState = node.flushState := by
      rw [flushState, flushState, hcursor]
    rw [hstate]
    exact h.inStep
  · intro r hr
    rw [htake] at hr
    exact (h.passed r hr).trans_eq hcursor.symm

/-- The records of a live step are normal. -/
theorem nextNormal :
    ∀ r ∈ nextRecords N (node.prune step.retained) recs step.path step.pruningPoint,
      r.warmup = false := by
  obtain ⟨f, hcursor, hadded, -⟩ := h.forkBlock hstep
  exact forall_mem_append.mpr ⟨fun r hr => h.facts.normal r (mem_of_mem_take hr),
    forall_mem_map.mpr fun a ha =>
      decide_eq_false (not_lt.mpr (hcursor.trans (hadded a ha).le))⟩

/-- **One commit** of a live node runs through and leaves a live node. -/
theorem commit :
    ∃ node' j', node.commit N step = some node' ∧
      Lived N base node' (node.recordsAfter N recs step) j' := by
  have hcovered := h.coveredStep hstep
  obtain ⟨-, tip, htip, -⟩ := hstep.getTip?
  rw [recordsAfter_of_active htip
    (hstep.active (by rw [h.tip]; exact Option.some_ne_none _) tip htip)]
  have htidy : Tidy ({} : ServiceLedger).vault := fun _ hm => by cases hm
  obtain ⟨s, tipHash, -, hlog, hcursor, hqueue, hsnap, hresolve⟩ :=
    (h.prune step.retained).syncLog.resolve_eq htidy hcovered step.pruningPoint
  set k := recs.length - step.path.removed.length
  have hlen : (recs.take k).length = k := by
    rw [length_take, min_eq_left (Nat.sub_le _ _)]
  have hpruned : LiveStep N (node.prune step.retained) step := { hstep with }
  -- Back to the fork, then over the added blocks, then the flush.
  have hrewound := (h.prune step.retained).rewound hpruned
    ((node.prune step.retained).chain.applyChanges step.path) hlog hcursor hqueue
    fun i snap hi => by
      rw [← hsnap]
      exact (OrdMap.of_get?_filter hi).1
  set synced : Node := { node.prune step.retained with
    chain := (node.prune step.retained).chain.applyChanges step.path
    sync := s.truncate (base + k) }
  have hrecs : recs.take k ++ Synced.batch N synced step.pruningPoint step.path.added
      = nextRecords N (node.prune step.retained) recs step.path step.pruningPoint := by
    rw [nextRecords, Synced.batch,
      show synced.sync.deepCursorDaa = s.deepCursorDaa from rfl, hcursor]
    rfl
  have hsync := (h.prune step.retained).syncLog
  obtain ⟨j', hlived⟩ := of_synced hrewound step.path step.pruningPoint (N.daaOf tipHash)
    (by rw [hlen]; exact hsync.length_applyChanges hcovered.removed_le)
    (by rw [map_take]; exact hsync.hashes_applyChanges hcovered.removed_le)
    (hrecs ▸ h.nextNormal hstep) hstep.chain
  rw [hlen, hrecs] at hlived
  exact ⟨_, j', hresolve, hlived⟩

end

end

end Lived

/-! ### A node that has folded nothing -/

/-- A node with empty stores, mirrors and sync, whose chain above its first block lies before
`pom_v3_activation`. -/
structure Dormant (N : Network) (node : Node) : Prop where
  stores : node.stores = {}
  mirrors : node.mirrors = {}
  sync : node.sync = {}
  inactive : ∀ h ∈ node.chain.hashes.drop 1, N.daaOf h < N.pomV3Activation

namespace Dormant

variable {N : Network} {node : Node} {step : ChainStep} {tipHash : Hash}

/-- A refold over inactive blocks finds nothing. -/
theorem refold (h : Dormant N node) (chain : SelectedChain) (common : ℕ)
    (hchain : ∀ i, i ≤ common → chain.hashes[i]? = node.chain.hashes[i]?) (pp : Hash) :
    N.refoldServiceLedger {} { chain, ownPp := pp, mirrors := {} } common 0 = ({}, []) := by
  unfold Network.refoldServiceLedger
  split
  · rfl
  · refine foldlRecOn _ _
      (motive := fun s => s = (({} : ServiceLedger), ([] : List QueuedEvent))) rfl
      fun s hs i hi => ?_
    subst hs
    rw [Network.refoldBlock]
    split
    · rfl
    · next x hx =>
      obtain ⟨hlo, hhi⟩ := mem_range'_1.mp hi
      have hget : node.chain.hashes[i]? = some x := by
        rw [← hchain i (by omega)]
        exact (Option.ite_none_right_eq_some.mp hx).2
      have hinactive : N.daaOf x < N.pomV3Activation := by
        refine h.inactive x (mem_of_getElem? (i := i - 1) ?_)
        rw [getElem?_drop, show 1 + (i - 1) = i by omega]
        exact hget
      simp only [Network.foldServiceChainBlock]
      split <;> rfl

/-- Empty stores and empty mirrors are in step. -/
theorem inStep_empty (N : Network) :
    InStep N { stores := {}, mirrors := {}, deepCursorDaa := 0 } where
  mirrored :=
    { burned := rfl
      firstSeen := rfl
      history := fun _ => rfl
      history_ne := fun _ h => by cases h
      suspended := fun _ => rfl
      rewarded := fun _ => ⟨fun h => (by cases h), fun h => (by cases h)⟩
      wins := fun _ => Perm.refl _
      wins_ne := fun _ h => by cases h }
  sealed := ServiceCommitIndex.SealedTo.empty
  occupied _ ht := by cases ht
  frontier := rfl

/-- A node that has folded nothing is synced with the empty stack, at any chain index. -/
theorem synced (N : Network) (chain : SelectedChain) (base : ℕ) :
    Synced N base { chain } [] 0 where
  logged :=
    { ledger := .refl _
      snapshots := fun _ _ h => by cases h
      snapshots_le := fun _ _ h => by cases h
      undo := fun _ _ _ h => by cases h }
  flushed := le_rfl
  queue := rfl
  rows := rfl
  inStep := inStep_empty N
  passed _ hr := by cases hr
  snapshots _ _ h := by cases h

variable (h : Dormant N node) (hstep : LiveStep N node step)
  (htip : (node.committedChain step).hashes.getLast? = some tipHash)
include h hstep htip

/-- The first commit with an active tip: the sync is empty, so the ledger is refolded, over
inactive blocks, up to the fork. -/
theorem commit_eq (hactive : N.pomV3Activation ≤ N.daaOf tipHash) :
    node.commit N step
      = some ((foldPath N step.path step.pruningPoint (node.forkIndex step.path)
          { chain := node.committedChain step }).flushQueue N (N.daaOf tipHash)) := by
  obtain ⟨-, tipHash', htip', hget⟩ := hstep.getTip?
  obtain rfl : tipHash = tipHash' := Option.mem_unique htip htip'
  obtain ⟨hhashes, htake⟩ := hstep.hashes
  set common := node.forkIndex step.path
  set chain := node.committedChain step
  have hrefold := h.refold chain common (fun i hi => by
    rw [hhashes, getElem?_append_left (by omega), getElem?_take_of_lt (by omega)])
    step.pruningPoint
  have hsync : ({ chain } : Node).syncTo N common step.pruningPoint = some {} := by
    exact congrArg (fun r : ServiceLedger × List QueuedEvent =>
      some ({ ledger := r.1, queue := r.2 } : ServiceLedgerSync)) hrefold
  have hstate : ({ node.prune step.retained with chain } : Node) = { chain } := by
    rw [prune, h.stores, h.mirrors, h.sync]
  show ({ node.prune step.retained with chain } : Node).advanceServiceLedger N step.path
    step.pruningPoint = _
  rw [hstate]
  simp only [advanceServiceLedger, hget, if_neg (not_lt.mpr hactive), Nat.add_sub_cancel,
    hsync]
  rfl

/-- Such a commit starts the stack at the fork. -/
theorem start (hactive : N.pomV3Activation ≤ N.daaOf tipHash) :
    ∃ node' base j, node.commit N step = some node' ∧
      Lived N base node' (node.recordsAfter N [] step) j := by
  have hcommit := h.commit_eq hstep htip hactive
  rw [recordsAfter_of_active htip hactive]
  obtain ⟨hlen, -⟩ := hstep.getTip?
  obtain ⟨hhashes, htake⟩ := hstep.hashes
  set common := node.forkIndex step.path
  set chain := node.committedChain step
  have hnext : nextRecords N (node.prune step.retained) [] step.path step.pruningPoint
      = [] ++ Synced.batch N { chain } step.pruningPoint step.path.added := by
    rw [nextRecords, take_nil, prune, h.mirrors, h.sync]
    rfl
  have hdrop : chain.hashes.drop (common + 1) = step.path.added := by
    rw [hhashes, drop_append_of_le_length htake.ge, drop_of_length_le htake.le, nil_append]
  rw [hnext]
  obtain ⟨j, hlived⟩ := Lived.of_synced (synced N chain common) step.path step.pruningPoint
    (N.daaOf tipHash) hlen hdrop
    (forall_mem_map.mpr fun a _ => decide_eq_false (Nat.not_lt_zero (N.daaOf a))) hstep.chain
  exact ⟨_, common, j, hcommit, hlived⟩

/-- A commit below the activation changes the chain only. -/
theorem sleep (hinactive : N.daaOf tipHash < N.pomV3Activation) :
    ∃ node', node.commit N step = some node' ∧ Dormant N node' := by
  obtain ⟨-, tipHash', htip', hget⟩ := hstep.getTip?
  obtain rfl : tipHash = tipHash' := Option.mem_unique htip htip'
  refine ⟨{ node.prune step.retained with chain := node.committedChain step }, ?_,
    h.stores, h.mirrors, h.sync, fun x hx => ?_⟩
  · rw [commit, resolveVirtual, ← committedChain, advanceServiceLedger]
    simp only [hget, if_pos hinactive]
  · -- Scores increase along the chain up to its tip.
    have hincr : (node.committedChain step).hashes.Pairwise fun a b => N.daaOf a < N.daaOf b :=
      hstep.chain.increasing
    obtain ⟨front, hfront⟩ := getLast?_eq_some_iff.mp htip
    have hmem : x ∈ front ++ [tipHash] := hfront ▸ mem_of_mem_drop hx
    rw [hfront] at hincr
    rcases mem_append.mp hmem with hx | hx
    · exact ((pairwise_append.mp hincr).2.2 x hx tipHash
        (mem_singleton_self _)).trans hinactive
    · rw [mem_singleton.mp hx]
      exact hinactive

end Dormant

/-! ### Runs -/

/-- A node along a live run, with the records of its chain: it has folded nothing yet, or it is
synced with them. -/
def Alive (N : Network) (node : Node) (recs : List FoldRecord) : Prop :=
  (Dormant N node ∧ recs = []) ∨ ∃ base j, Lived N base node recs j

namespace Alive

variable {N : Network} {node : Node} {recs : List FoldRecord} {step : ChainStep}

/-- **One commit** of a run. -/
theorem commit (h : Alive N node recs) (hstep : LiveStep N node step) :
    ∃ node', node.commit N step = some node' ∧ Alive N node' (node.recordsAfter N recs step) := by
  rcases h with ⟨h, rfl⟩ | ⟨base, j, h⟩
  · obtain ⟨-, tipHash, htip, -⟩ := hstep.getTip?
    rcases lt_or_ge (N.daaOf tipHash) N.pomV3Activation with hlt | hge
    · obtain ⟨node', hcommit, hnext⟩ := h.sleep hstep htip hlt
      refine ⟨node', hcommit, Or.inl ⟨hnext, ?_⟩⟩
      rw [recordsAfter, htip, Option.any_some, if_pos (decide_eq_true hlt)]
    · obtain ⟨node', base, j, hcommit, hnext⟩ := h.start hstep htip hge
      exact ⟨node', hcommit, Or.inr ⟨base, j, hnext⟩⟩
  · obtain ⟨node', j', hcommit, hnext⟩ := h.commit hstep
    exact ⟨node', hcommit, Or.inr ⟨base, j', hnext⟩⟩

/-- The mirrors of a live node are those of its stores. -/
theorem inStep (h : Alive N node recs) : InStep N node.flushState := by
  rcases h with ⟨h, -⟩ | ⟨base, j, h⟩
  · rw [flushState, h.stores, h.mirrors, h.sync]
    exact Dormant.inStep_empty N
  · exact h.inStep

end Alive

/-- **A whole run** of live commits does not panic and leaves a live node. -/
theorem LiveRun.alive (steps : List ChainStep) :
    ∀ {node : Node} {recs : List FoldRecord}, Alive N node recs → LiveRun N node steps →
      ∃ node' recs', commitAllLogged N (node, recs) steps = some (node', recs') ∧
        Alive N node' recs' := by
  induction steps with
  | nil => exact fun h _ => ⟨_, _, rfl, h⟩
  | cons step steps ih =>
    intro node recs h hrun
    obtain ⟨next, hcommit, hnext⟩ := h.commit hrun.1
    obtain ⟨last, recs', hall, hlast⟩ := ih hnext (hrun.2 next hcommit)
    refine ⟨last, recs', ?_, hlast⟩
    rw [commitAllLogged, foldlM_cons, commitLogged, hcommit]
    exact hall

/-- **Boot reload equals the live state**: after every run of live commits of a node that
started with nothing folded, a reboot finds in the stores the burned outpoints, the suspensions,
the standing index, the rewarded requests and the recent wins the node holds in memory, its
frontier, and its commitment at every score. -/
theorem boot_reload_live {N : Network} {start : Node} {steps : List ChainStep}
    (hstart : Dormant N start) (hrun : LiveRun N start steps) :
    ∃ node, start.commitAll N steps = some node ∧ ∀ pp,
      SameMirrors (node.reboot N pp).mirrors node.mirrors ∧
        (node.reboot N pp).sync.deepCursorDaa = node.sync.deepCursorDaa ∧
        ∀ d, (node.reboot N pp).mirrors.commit.commitmentAt d
          = node.mirrors.commit.commitmentAt d := by
  obtain ⟨node, recs, hall, halive⟩ := LiveRun.alive steps (.inl ⟨hstart, rfl⟩) hrun
  refine ⟨node, ?_, fun pp => halive.inStep.reload rfl pp⟩
  rw [commitAll_eq N steps (start, []), hall]
  rfl

/-! ### A reorg below the frontier -/

/-- Block 1 accepts a request, block 2 arms its audit for producer 7, block 3 locks a claim of
that producer. Blocks 4 and 6 compete on top of block 3; both close the audit, at scores 3003 and
3004. Blocks 5 and 7 make them final. Reds raise the scores: blue scores stay low. -/
def auditNetwork : Network :=
  .ofBlocks testnetParams
    [(0, { emptyBlock 0 0 with selectedParent := none }),
      (1, { emptyBlock 1 0 with accepted := [.request 9 9 (some 0) 0 0] }), (2, claimBlock 2 1),
      (3, { claimBlock 3000 2 with blueScore := 3, coinbaseId := 1001 }),
      (4, { emptyBlock 3003 3 with blueScore := 4 }),
      (5, { emptyBlock 5003 4 with blueScore := 5 }),
      (6, { emptyBlock 3004 3 with blueScore := 4 }),
      (7, { emptyBlock 5004 6 with blueScore := 5 })]

/-- A node at genesis. -/
def genesisNode : Node :=
  { chain := { hashes := [0] } }

/-- A node that replaces block 4 by block 6 before the miss of block 4 is final. -/
theorem boot_reload_live_reorg :
    ∃ node, genesisNode.commitAll auditNetwork [{ path := { added := [1, 2, 3] } },
        { path := { added := [4] } }, { path := { removed := [4], added := [6] } },
        { path := { added := [7] } }] = some node ∧ ∀ pp,
      SameMirrors (node.reboot auditNetwork pp).mirrors node.mirrors ∧
        (node.reboot auditNetwork pp).sync.deepCursorDaa = node.sync.deepCursorDaa ∧
        ∀ d, (node.reboot auditNetwork pp).mirrors.commit.commitmentAt d
          = node.mirrors.commit.commitmentAt d :=
  boot_reload_live ⟨rfl, rfl, rfl, fun _ h => (by cases h)⟩ (by decide +kernel)

/-- **A burn that moves in memory only**: the burn of claim `(1001, 0)` by block 4 is persisted at
score 3003. The reorg to block 6 undoes it, block 6 burns the claim again, and the flush moves the
mirrored burn to 3004 while it keeps the stored row. -/
theorem boot_reload_reorged :
    (genesisNode.commitAll auditNetwork [{ path := { added := [1, 2, 3] } },
        { path := { added := [4, 5] } }, { path := { removed := [5, 4], added := [6, 7] } }]).map
      (fun node => (node.mirrors.burned.get? ⟨1001, 0⟩,
        (node.reboot auditNetwork 0).mirrors.burned.get? ⟨1001, 0⟩))
      = some (some 3004, some 3003) := by
  decide +kernel

end KeryxNode
