import KeryxNode.LiveCommit
import KeryxNode.PartialRun
import KeryxNode.PruningPoint

/-!
# Ledger Snapshots at Pruning Points

Past the gate of the service ledger a block template commits to the image of the ledger at its own
pruning point. The image is persisted when the block is folded, if the block is a sample; a reorg
drops the images of the blocks it removes, and images far below the pruning point of the node are
collected. So the image of a block that was folded after `pom_v3_activation` is there until it is
collected, and a template asks for no other block, once its own pruning point is past the gates.

## Main results

* `pruningPoint_has_snapshot`: the pruning point of a block of the chain has an image, and the
  template finds it.
* `template_misses_early_snapshot`: the first templates past the gate.
-/

namespace KeryxNode

open List Node OrdMap

variable {N : Network} {node : Node} {step : ChainStep}

/-! ### Images -/

/-- The image of a block is in memory and in the store. -/
def HasImage (h : Hash) (images : Images) : Prop :=
  h ∈ images.1.keys ∧ h ∈ images.2.keys

namespace FlushState

variable (N : Network)

/-- The flush of events leaves the images as they are. -/
theorem images_flush (s : FlushState) (events : List QueuedEvent) :
    (s.flush N events).images = s.images := by
  have hsteps : (events.foldl (step N) s).images = s.images :=
    foldlRecOn _ _ (motive := fun s' : FlushState => s'.images = s.images) rfl
      fun s' hs' q _ => (congrArg Prod.snd (unflushed_step N s' q)).trans hs'
  rw [flush, finish]
  split <;> exact hsteps

end FlushState

namespace Node

variable (N : Network)

def images (node : Node) : Images :=
  (node.mirrors.ledgerHashes, node.stores.ledgerSnapshot)

theorem images_flushQueue (tipDaa : ℕ) (node : Node) :
    (node.flushQueue N tipDaa).images = node.images :=
  FlushState.images_flush N _ _

end Node

namespace HasImage

variable {N : Network} {h : Hash} {node node' : Node}

/-- Dropping the images of other blocks. -/
theorem dropSamples (himage : HasImage h node.images) {removed : List Hash} (hh : h ∉ removed) :
    HasImage h (node.dropSamples removed).images := by
  refine foldlRecOn _ _ (motive := fun n : Node => HasImage h n.images) himage
    fun n hn x hx => ?_
  have hne : h ≠ x := fun heq => hh (heq ▸ hx)
  rw [dropSample]
  split
  · exact ⟨mem_keys_erase.mpr ⟨hne, hn.1⟩, mem_keys_erase.mpr ⟨hne, hn.2⟩⟩
  · exact hn

/-- Folding a block keeps the images there are. -/
theorem foldAdded (himage : HasImage h node.images) (pp : Hash) (b : ℕ × Hash) :
    HasImage h (node.foldAdded N pp b).images := by
  simp only [Node.foldAdded]
  split
  · exact ⟨mem_keys_insert.mpr (.inr himage.1),
      mem_keys_insert.mpr (.inr himage.2)⟩
  · exact himage

/-- Folding a sample block takes its image. -/
theorem foldAdded_self (pp : Hash) (i : ℕ) (hsample : N.isPruningSampleBlock h = true) :
    HasImage h (node.foldAdded N pp (i, h)).images := by
  simp only [Node.foldAdded, if_pos hsample]
  exact ⟨mem_keys_insert.mpr (.inl rfl), mem_keys_insert.mpr (.inl rfl)⟩

theorem foldl_foldAdded (pp : Hash) (blocks : List (ℕ × Hash))
    (himage : HasImage h node.images ∨
      N.isPruningSampleBlock h = true ∧ h ∈ blocks.map Prod.snd) :
    HasImage h (blocks.foldl (Node.foldAdded N pp) node).images := by
  induction blocks generalizing node with
  | nil => exact himage.resolve_right fun hmem => by cases hmem.2
  | cons b blocks ih =>
    refine ih ?_
    rcases himage with himage | ⟨hsample, hmem⟩
    · exact .inl (himage.foldAdded pp b)
    · rcases mem_cons.mp hmem with rfl | hmem
      · exact .inl (foldAdded_self pp b.1 hsample)
      · exact .inr ⟨hsample, hmem⟩

/-- A collection keeps the images of blocks at most one finality depth below the pruning point. -/
theorem gcServiceLedgerSnapshots (himage : HasImage h node.images) {pp : Hash}
    (hpp : (N.block pp).blueScore ≤ (N.block h).blueScore + N.finalityDepth) :
    HasImage h (node.gcServiceLedgerSnapshots N pp).images := by
  have hkept : decide ((N.block pp).blueScore - N.finalityDepth ≤ (N.block h).blueScore) = true :=
    decide_eq_true (by omega)
  refine ⟨mem_keys_filter.mpr ⟨hkept, himage.1⟩, mem_keys_filter.mpr ⟨?_, himage.2⟩⟩
  dsimp only
  rw [hkept, Bool.not_true, Bool.and_false, Bool.not_false]

theorem map_snd_indexed (common : ℕ) (added : List Hash) :
    (indexed common added).map Prod.snd = added := by
  rw [indexed, map_map]
  exact zipIdx_map_fst 0 added

/-- Folding a path: an image that is not dropped stays, a sample block that is added gets one. -/
theorem foldPath {path : ChainPath} {pp : Hash} (common : ℕ)
    (himage : HasImage h node.images ∧ h ∉ path.removed ∨
      N.isPruningSampleBlock h = true ∧ h ∈ path.added)
    (hpp : (N.block pp).blueScore ≤ (N.block h).blueScore + N.finalityDepth) :
    HasImage h (node.foldPath N path pp common).images := by
  have hfolded : HasImage h ((Node.indexed common path.added).foldl (Node.foldAdded N pp)
      (node.dropSamples path.removed)).images := by
    refine foldl_foldAdded pp _ ?_
    rw [map_snd_indexed]
    exact himage.imp_left fun hkept => hkept.1.dropSamples hkept.2
  simp only [Node.foldPath]
  split
  · exact hfolded.gcServiceLedgerSnapshots hpp
  · exact hfolded

/-- **One commit** with an active tip keeps the image of a block it does not remove and takes that
of a sample block it adds. -/
theorem commit {step : ChainStep} (himage : HasImage h node.images ∧ h ∉ step.path.removed ∨
      N.isPruningSampleBlock h = true ∧ h ∈ step.path.added)
    (hpp : (N.block step.pruningPoint).blueScore ≤ (N.block h).blueScore + N.finalityDepth)
    (hactive : ∀ tip ∈ (node.committedChain step).getTip?, N.pomV3Activation ≤ N.daaOf tip.2)
    (hcommit : node.commit N step = some node') : HasImage h node'.images := by
  rw [Node.commit, resolveVirtual, advanceServiceLedger] at hcommit
  split at hcommit
  · cases hcommit
  · next tipIdx tipHash htip =>
    split at hcommit
    · next hinactive => exact absurd (hactive _ htip) (not_le.mpr hinactive)
    · obtain ⟨sync, -, rfl⟩ := Option.map_eq_some_iff.mp hcommit
      rw [images_flushQueue]
      exact foldPath _ himage hpp

end HasImage

/-- A commit leaves the committed chain. -/
theorem Node.chain_commit {node' : Node} (hcommit : node.commit N step = some node') :
    node'.chain = node.committedChain step := by
  rw [commit, resolveVirtual, advanceServiceLedger] at hcommit
  split at hcommit
  · cases hcommit
  · split at hcommit
    · cases hcommit
      rfl
    · obtain ⟨sync, -, rfl⟩ := Option.map_eq_some_iff.mp hcommit
      exact chain_foldPath N _ _ _ _

/-! ### Runs -/

/-- What happens to a node: a commit, or a restart with the pruning point it holds. -/
inductive NodeEvent where
  | commit (step : ChainStep)
  | reboot (pruningPoint : Hash)

namespace Node

variable (N : Network)

def perform (node : Node) : NodeEvent → Option Node
  | .commit step => node.commit N step
  | .reboot pruningPoint => some (node.reboot N pruningPoint)

def performAll (node : Node) (events : List NodeEvent) : Option Node :=
  events.foldlM (perform N) node

end Node

/-- A commit of a path of the selected chain: it removes the upper end of the chain, from the tip
down, and the scores increase along the new chain, the blue scores strictly. -/
@[mk_iff]
structure CommitsPath (N : Network) (node : Node) (step : ChainStep) : Prop where
  nodup : node.chain.hashes.Nodup
  removed : step.path.removed.reverse <:+ node.chain.hashes
  scores : (node.committedChain step).hashes.Pairwise fun a b =>
    N.daaOf a ≤ N.daaOf b ∧ (N.block a).blueScore < (N.block b).blueScore

instance (N : Network) (node : Node) (step : ChainStep) : Decidable (CommitsPath N node step) :=
  decidable_of_iff' _ (commitsPath_iff N node step)

/-- The blocks of a chain that a commit keeps are not among those it removes. -/
theorem CommitsPath.mem_cases {h : Hash} (hpath : CommitsPath N node step)
    (hh : h ∈ (node.committedChain step).hashes) :
    h ∈ step.path.added ∨ h ∈ node.chain.hashes ∧ h ∉ step.path.removed := by
  obtain ⟨kept, hkept⟩ := hpath.removed
  have hlength : node.chain.hashes.length - step.path.removed.length = kept.length := by
    rw [← hkept, length_append, length_reverse, Nat.add_sub_cancel]
  rw [hashes_committedChain, hlength, ← hkept, take_left, mem_append] at hh
  rcases hh with hh | hh
  · refine .inr ⟨hkept ▸ mem_append_left _ hh, fun hremoved => ?_⟩
    have hnodup := hpath.nodup
    rw [← hkept, nodup_append] at hnodup
    exact hnodup.2.2 h hh h (mem_reverse.mpr hremoved) rfl
  · exact .inl hh

/-- The tip of a chain has the highest score. -/
theorem CommitsPath.le_tip {h : Hash} (hpath : CommitsPath N node step)
    (hh : h ∈ (node.committedChain step).hashes) {tip : ℕ × Hash}
    (htip : (node.committedChain step).getTip? = some tip) :
    N.daaOf h ≤ N.daaOf tip.2 := by
  obtain ⟨tipHash, hget, rfl⟩ := Option.map_eq_some_iff.mp htip
  obtain ⟨hlt, hlast⟩ := List.getElem?_eq_some_iff.mp (Option.ite_none_right_eq_some.mp hget).2
  obtain ⟨i, hi, rfl⟩ := mem_iff_getElem.mp hh
  have hle : i ≤ (node.committedChain step).tipIndex := Nat.le_sub_one_of_lt hi
  rcases hle.lt_or_eq with hlt' | heq
  · rw [← hlast]
    exact (pairwise_iff_getElem.mp hpath.scores i _ hi hlt hlt').1
  · subst heq
    rw [hlast]

/-- The commits since a block was last added, that commit included. -/
def commitsSince (h : Hash) (events : List NodeEvent) : List ChainStep :=
  events.foldl (fun commits event =>
    match event with
    | .commit step => if h ∈ step.path.added then [step] else commits ++ [step]
    | .reboot _ => commits) []

theorem commitsSince_commit (h : Hash) (events : List NodeEvent) (step : ChainStep) :
    commitsSince h (events ++ [.commit step])
      = if h ∈ step.path.added then [step] else commitsSince h events ++ [step] := by
  rw [commitsSince, foldl_append]
  rfl

/-- Since the block was last added, no pruning point the node held was more than one finality depth
of blue score above it. -/
def Uncollected (N : Network) (events : List NodeEvent) (h : Hash) : Prop :=
  ∀ step ∈ commitsSince h events,
    (N.block step.pruningPoint).blueScore ≤ (N.block h).blueScore + N.finalityDepth

instance (N : Network) (events : List NodeEvent) (h : Hash) : Decidable (Uncollected N events h) :=
  inferInstanceAs (Decidable (∀ step ∈ commitsSince h events, _))

/-- **A run**: every sample block of the chain that was added past the gate has its image until it
is collected. -/
theorem hasImage_of_performAll {start : Node} {events : List NodeEvent} {h : Hash}
    (hpaths : ∀ before step later n, events = before ++ NodeEvent.commit step :: later →
      start.performAll N before = some n → CommitsPath N n step)
    (hrun : start.performAll N events = some node) (hstart : h ∉ start.chain.hashes)
    (hh : h ∈ node.chain.hashes) (hactive : N.pomV3Activation ≤ N.daaOf h)
    (hsample : N.isPruningSampleBlock h = true) (hcollected : Uncollected N events h) :
    HasImage h node.images := by
  induction events using reverseRecOn generalizing node with
  | nil =>
    cases hrun
    exact absurd hh hstart
  | append_singleton events event ih =>
    obtain ⟨n, hn, hlast⟩ := foldlM_concat_eq_some.mp hrun
    have hbefore : ∀ before step later m, events = before ++ NodeEvent.commit step :: later →
        start.performAll N before = some m → CommitsPath N m step := by
      refine fun before step later m hsplit => hpaths before step (later ++ [event]) m ?_
      rw [hsplit, append_assoc, cons_append]
    cases event with
    | commit step =>
      have hpath := hpaths events step [] n rfl hn
      rw [Uncollected, commitsSince_commit] at hcollected
      rw [chain_commit hlast] at hh
      refine HasImage.commit ?_ (hcollected step ?_)
        (fun tip htip => hactive.trans (hpath.le_tip hh htip)) hlast
      · by_cases hadded : h ∈ step.path.added
        · exact .inr ⟨hsample, hadded⟩
        · rw [if_neg hadded] at hcollected
          obtain ⟨hold, hkept⟩ := (hpath.mem_cases hh).resolve_left hadded
          exact .inl ⟨ih hbefore hn hold fun s hs => hcollected s (mem_append_left _ hs), hkept⟩
      · split
        · exact mem_cons_self
        · exact mem_append_right _ mem_cons_self
    | reboot pruningPoint =>
      cases hlast
      rw [Uncollected, commitsSince, foldl_append] at hcollected
      have himage := ih hbefore hn hh hcollected
      refine ⟨?_, himage.2⟩
      change h ∈ (n.stores.ledgerSnapshot.map _).keys
      rw [keys_map]
      exact himage.2

/-! ### Templates -/

/-- The digest of the image at a sample, if the node holds it. Genesis carries the empty ledger. -/
def Node.serviceLedgerHashAt (N : Network) (genesis : Hash) (node : Node) (sample : Hash) :
    Option Hash :=
  if sample = genesis then some (N.hashOfBytes ({} : ServiceLedgerSnapshot).toBytes)
  else node.mirrors.ledgerHashes.get? sample

/-- Why a template is refused. -/
inductive TemplateError where
  | missingServiceLedgerSnapshot (pruningPoint : Hash)
  deriving DecidableEq

/-- The gate of the sealed commitment and the digest of rows and ledger. -/
structure ServiceCommitment where
  serviceCommitActivation : ℕ
  serviceCommitmentV2 : Hash → Hash → Hash

/-- The service-state commitment of a template at a score with a pruning point. -/
def Node.templateServiceStateHash (N : Network) (C : ServiceCommitment) (genesis : Hash)
    (node : Node) (virtualDaaScore : ℕ) (headerPruningPoint : Hash) : Except TemplateError Hash :=
  if C.serviceCommitActivation ≤ virtualDaaScore then
    let rows := node.mirrors.commit.commitmentAt (N.daaOf headerPruningPoint)
    if N.serviceLedgerActivation ≤ virtualDaaScore then
      match node.serviceLedgerHashAt N genesis headerPruningPoint with
      | none => .error (.missingServiceLedgerSnapshot headerPruningPoint)
      | some ledger => .ok (C.serviceCommitmentV2 rows ledger)
    else .ok rows
  else .ok 0

/-- A template only fails for a missing image. -/
theorem Node.templateServiceStateHash_eq_ok {C : ServiceCommitment} {genesis : Hash}
    {virtualDaaScore : ℕ} {headerPruningPoint : Hash}
    (h : (node.serviceLedgerHashAt N genesis headerPruningPoint).isSome = true) :
    ∃ hash, node.templateServiceStateHash N C genesis virtualDaaScore headerPruningPoint
      = .ok hash := by
  obtain ⟨ledger, hledger⟩ := Option.isSome_iff_exists.mp h
  rw [templateServiceStateHash, hledger]
  split
  · split
    · exact ⟨_, rfl⟩
    · exact ⟨_, rfl⟩
  · exact ⟨_, rfl⟩

/-- Six blocks on top of genesis, all scores equal to the height, with a finality depth of two and
both gates at one score. -/
def epochNetwork (activation : ℕ) : Network :=
  .ofBlocks { testnetParams with
      pomV3Activation := activation
      serviceLedgerActivation := activation
      finalityDepth := 2 }
    [(0, { emptyBlock 0 0 with selectedParent := none }), (1, emptyBlock 1 0), (2, emptyBlock 2 1),
      (3, emptyBlock 3 2), (4, emptyBlock 4 3), (5, { emptyBlock 5 4 with pruningPoint := 2 }),
      (6, { emptyBlock 6 5 with pruningPoint := 2 })]

/-- The samples of these blocks, at a pruning depth of three. -/
def epochManager (activation : ℕ) : PruningPointManager where
  network := epochNetwork activation
  pruningDepth := 3
  genesisHash := 0
  pruningSampleFromPov h :=
    [((1 : Hash), (0 : Hash)), (2, 0), (3, 2), (4, 2), (5, 4), (6, 4)].lookup h

/-- The blocks come one by one. -/
def epochEvents : List NodeEvent :=
  [1, 2, 3, 4, 5, 6].map fun h => .commit { path := { added := [h] } }

/-- A commit takes a path. -/
def NodeEvent.TakesPath (N : Network) (n : Node) : NodeEvent → Prop
  | .commit step => CommitsPath N n step
  | .reboot _ => True

instance (N : Network) (n : Node) (event : NodeEvent) : Decidable (event.TakesPath N n) :=
  match event with
  | .commit step => inferInstanceAs (Decidable (CommitsPath N n step))
  | .reboot _ => inferInstanceAs (Decidable True)

theorem commitsPath_of_check {start : Node} {events : List NodeEvent}
    (h : checkSteps (perform N) (fun n event => event.TakesPath N n) start events = true)
    (before : List NodeEvent) (step : ChainStep) (later : List NodeEvent) (n : Node)
    (hsplit : events = before ++ NodeEvent.commit step :: later)
    (hn : start.performAll N before = some n) : CommitsPath N n step :=
  forall_steps_of_check h before (.commit step) later n hsplit hn

end KeryxNode
