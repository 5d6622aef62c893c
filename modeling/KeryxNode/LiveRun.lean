import KeryxNode.StackRows

/-!
# Runs of a Live Node

A node that follows its chain without restarting keeps four things together: the ledger, which
is the replay of the stack of its chain; the queue, which holds the events of the upper part of
the stack; the stores, which hold the rows of the lower part; and the mirrors, which are those
boot would load. `Synced` is this invariant. Folding blocks pushes records and queues their
events; the flush moves whole blocks off the bottom of the queue to the stores.
-/

namespace KeryxNode

open BondBook List FoldRecord

/-! ### Samples are no rows -/

namespace Node

/-- The stores, mirrors and frontier of a node, as the flush sees them. -/
def flushState (node : Node) : FlushState :=
  { stores := node.stores, mirrors := node.mirrors, deepCursorDaa := node.sync.deepCursorDaa }

/-- Two nodes that differ, besides their chain and their ledger, in persisted images only. -/
structure SameRows (node node' : Node) : Prop where
  stores : node'.stores = { node.stores with ledgerSnapshot := node'.stores.ledgerSnapshot }
  mirrors : node'.mirrors = { node.mirrors with ledgerHashes := node'.mirrors.ledgerHashes }
  cursor : node'.sync.deepCursorDaa = node.sync.deepCursorDaa

namespace SameRows

variable {N : Network} {node node' node'' : Node}

theorem refl (node : Node) : SameRows node node := ⟨rfl, rfl, rfl⟩

theorem trans (h : SameRows node node') (h' : SameRows node' node'') : SameRows node node'' where
  stores := h'.stores.trans (by rw [h.stores])
  mirrors := h'.mirrors.trans (by rw [h.mirrors])
  cursor := h'.cursor.trans h.cursor

/-- Images are not mirrored rows. -/
theorem inStep (h : SameRows node node') (hstep : InStep N node.flushState) :
    InStep N node'.flushState := by
  obtain ⟨hmirrored, hsealed, -, hfrontier⟩ := hstep
  have hstate : node'.flushState =
      { stores := { node.stores with ledgerSnapshot := node'.stores.ledgerSnapshot }
        mirrors := { node.mirrors with ledgerHashes := node'.mirrors.ledgerHashes }
        deepCursorDaa := node.sync.deepCursorDaa } := by
    rw [flushState, h.cursor]
    congr 1
    · exact h.stores
    · exact h.mirrors
  rw [hstate]
  exact ⟨{ hmirrored with }, hsealed, fun _ ht => (by cases ht), hfrontier⟩

end SameRows

variable (N : Network)

theorem sameRows_dropSamples (removed : List Hash) (node : Node) :
    SameRows node (node.dropSamples removed) := by
  refine foldlRecOn _ _ (motive := fun n : Node => SameRows node n) (.refl node) ?_
  intro n hn h _
  refine hn.trans ?_
  unfold dropSample
  split
  · exact ⟨rfl, rfl, rfl⟩
  · exact .refl n

/-- Folding a path changes no row. -/
theorem sameRows_foldPath (path : ChainPath) (pp : Hash) (common : ℕ) (node : Node) :
    SameRows node (node.foldPath N path pp common) := by
  have hfolded : SameRows node ((indexed common path.added).foldl (foldAdded N pp)
      (node.dropSamples path.removed)) := by
    refine foldlRecOn _ _ (motive := fun n : Node => SameRows node n)
      (sameRows_dropSamples path.removed node) ?_
    intro n hn b _
    refine hn.trans ?_
    simp only [foldAdded]
    split <;> exact ⟨rfl, rfl, rfl⟩
  simp only [foldPath]
  split
  · exact hfolded.trans ⟨rfl, rfl, rfl⟩
  · exact hfolded.trans ⟨rfl, rfl, rfl⟩

end Node

/-! ### The queue -/

/-- Folding the added blocks queues their events; snapshots are added above the common
ancestor only. -/
theorem Logged.queue_foldAll {N : Network} {base : ℕ} {L₀ : ServiceLedger} {pp : Hash}
    {v : FoldView} {cursor : ℕ} :
    ∀ (added : List Hash) (node : Node) {recs : List FoldRecord},
      Logged N base L₀ node.sync recs → SameReads (node.view pp) v →
      node.sync.deepCursorDaa = cursor →
      let folded := (Node.indexed (base + recs.length) added).foldl (Node.foldAdded N pp) node
      folded.sync.queue = node.sync.queue ++ events N (base + recs.length)
          (replay N L₀ recs) (added.map fun h => ⟨v, h, decide (N.daaOf h < cursor)⟩) ∧
        ∀ i snap, folded.sync.snapshots.get? i = some snap →
          node.sync.snapshots.get? i = some snap ∨ base < i
  | [], node, recs, _, _, _ =>
    ⟨(append_nil _).symm, fun _ _ hi => Or.inl hi⟩
  | h :: added, node, recs, hlog, hv, hcursor => by
    obtain ⟨hnext, hreads, hcursor'⟩ := hlog.foldAdded hv hcursor h
    obtain ⟨hqueue, hsnap⟩ := Logged.queue_foldAll added _ hnext hreads hcursor'
    have hsync := (Node.foldAdded_eq N pp node (base + recs.length + 1, h)).2
    rw [foldServiceChainBlock_congr hv, hcursor] at hsync
    -- The ledger folds as the replay of the stack does.
    set r : FoldRecord := ⟨v, h, decide (N.daaOf h < cursor)⟩
    have houtcome : (N.foldServiceChainBlock v node.sync.ledger h
        (decide (N.daaOf h < cursor))).outcome
        = (r.apply N (replay N L₀ recs)).outcome := (hlog.ledger.apply N r).2.2
    rw [Node.indexed_cons, foldl_cons, map_cons]
    rw [length_append, length_singleton, ← Nat.add_assoc] at hqueue hsnap
    constructor
    · rw [hqueue, hsync, replay_append, append_assoc]
      simp only [houtcome]
      rfl
    · intro i snap hi
      rcases hsnap i snap hi with hi | hi
      · rw [hsync] at hi
        simp only [OrdMap.get?_insert] at hi
        split at hi
        · exact .inr (by omega)
        · exact .inl hi
      · exact .inr hi

namespace FoldRecord

variable {N : Network}

/-- Events carry chain indices above the one the stack is folded on. -/
theorem index_of_mem_events {i : ℕ} {L : ServiceLedger} {recs : List FoldRecord}
    {q : QueuedEvent} (h : q ∈ events N i L recs) : i < q.index := by
  induction recs generalizing i L with
  | nil => cases h
  | cons r recs ih =>
    rcases mem_append.mp h with h | h
    · obtain ⟨e, -, rfl⟩ := mem_map.mp h
      exact Nat.lt_succ_self i
    · exact (Nat.lt_succ_self i).trans (ih h)

/-- Dropping the events above a chain index drops the upper part of the stack. -/
theorem filter_events (i m : ℕ) (L : ServiceLedger) (recs : List FoldRecord) :
    (events N i L recs).filter (fun q => decide (q.index ≤ i + m))
      = events N i L (recs.take m) := by
  induction recs generalizing i m L with
  | nil => simp [events]
  | cons r recs ih =>
    cases m with
    | zero =>
      rw [take_zero, events.eq_1, filter_eq_nil_iff]
      intro q hq
      have := index_of_mem_events hq
      simp only [decide_eq_true_eq]
      omega
    | succ m =>
      rw [take_succ_cons, events, filter_append]
      congr 1
      · refine filter_eq_self.mpr fun q hq => ?_
        obtain ⟨e, -, rfl⟩ := mem_map.mp hq
        exact decide_eq_true (show i + 1 ≤ i + (m + 1) by omega)
      · rw [show i + (m + 1) = i + 1 + m by omega]
        exact ih (i + 1) m _

/-- Taking the finality-deep front of the events takes whole blocks off the bottom of the
stack, none of them above the last event taken. -/
theorem takeWhile_events (bound i : ℕ) (L : ServiceLedger) {recs : List FoldRecord}
    (hincr : recs.Pairwise fun a b => N.daaOf a.hash < N.daaOf b.hash) :
    let final := fun q : QueuedEvent => decide (q.daa + N.finalityDepth ≤ bound)
    ∃ m ≤ recs.length,
      (events N i L recs).takeWhile final = events N i L (recs.take m) ∧
      (events N i L recs).dropWhile final
        = events N (i + m) (replay N L (recs.take m)) (recs.drop m) ∧
      ∀ r ∈ recs.take m, ∃ q ∈ events N i L (recs.take m), N.daaOf r.hash ≤ q.daa := by
  intro final
  induction recs generalizing i L with
  | nil => exact ⟨0, le_refl _, rfl, rfl, fun _ hr => (by cases hr)⟩
  | cons r recs ih =>
    obtain ⟨hhead, htail⟩ := pairwise_cons.mp hincr
    obtain ⟨m, hm, htake, hdrop, hdeep⟩ := ih (i + 1) (r.apply N L).ledger htail
    set block := (r.apply N L).outcome.queued (i + 1) (N.daaOf r.hash)
    have hevents : events N i L (r :: recs)
        = block ++ events N (i + 1) (r.apply N L).ledger recs := rfl
    have hdaa : ∀ q ∈ block, q.daa = N.daaOf r.hash := forall_mem_map.mpr fun _ _ => rfl
    by_cases htaken : (∀ q ∈ block, final q = true) ∧ (block = [] → m ≠ 0)
    · obtain ⟨hall, hsome⟩ := htaken
      refine ⟨m + 1, Nat.succ_le_succ hm, ?_, ?_, ?_⟩
      · rw [hevents, takeWhile_append_of_pos hall, htake]
        rfl
      · rw [hevents, dropWhile_append_of_pos hall, hdrop,
          show i + (m + 1) = i + 1 + m by omega]
        rfl
      · have habove : ∀ x ∈ recs.take m, ∃ q ∈ events N i L ((r :: recs).take (m + 1)),
            N.daaOf x.hash ≤ q.daa := by
          intro x hx
          obtain ⟨q, hq, hle⟩ := hdeep x hx
          exact ⟨q, mem_append_right _ hq, hle⟩
        refine forall_mem_cons.mpr ⟨?_, habove⟩
        by_cases hnil : block = []
        · -- A block without events goes with the blocks above it, if any is taken.
          have hne : recs.take m ≠ [] := by
            have := hsome hnil
            rw [← length_pos_iff, length_take]
            omega
          obtain ⟨x, hx⟩ := exists_mem_of_ne_nil _ hne
          obtain ⟨q, hq, hle⟩ := habove x hx
          exact ⟨q, hq, (hhead x (mem_of_mem_take hx)).le.trans hle⟩
        · obtain ⟨q, hq⟩ := exists_mem_of_ne_nil _ hnil
          exact ⟨q, mem_append_left _ hq, (hdaa q hq).ge⟩
    · -- The first event is not deep enough.
      have hnone : (events N i L (r :: recs)).takeWhile final = [] := by
        rw [hevents]
        cases hblock : block with
        | nil =>
          obtain rfl : m = 0 := by simpa [hblock] using htaken
          exact htake
        | cons q qs =>
          refine takeWhile_cons_of_neg fun hq => htaken ⟨fun x hx => ?_, by simp [hblock]⟩
          have hmem : q ∈ block := hblock ▸ mem_cons_self
          simp only [final, hdaa q hmem, hdaa x hx] at hq ⊢
          exact hq
      refine ⟨0, Nat.zero_le _, hnone, ?_, fun _ hr => (by cases hr)⟩
      have hsplit := takeWhile_append_dropWhile (p := final) (l := events N i L (r :: recs))
      rw [hnone] at hsplit
      exact hsplit

end FoldRecord

/-! ### The flush of a stack -/

/-- The images of the ledger at sample blocks: their digests in memory and their stored bytes. -/
abbrev Images :=
  OrdMap Hash Hash × OrdMap Hash (List UInt8)

namespace FlushState

variable (N : Network)

def images (s : FlushState) : Images :=
  (s.mirrors.ledgerHashes, s.stores.ledgerSnapshot)

/-- What the rows of an event leave alone. -/
def unflushed (s : FlushState) : ℕ × Images :=
  (s.deepCursorDaa, s.images)

theorem unflushed_logStrike (daa : ℕ) (miner : Hash) (e : StrikeEntry) (s : FlushState) :
    (s.logStrike daa miner e).unflushed = s.unflushed := by
  simp only [logStrike]
  split <;> rfl

theorem unflushed_burnClaims (daa : ℕ) (claims : List EscrowClaim) (s : FlushState) :
    (claims.foldl (burnClaim daa) s).unflushed = s.unflushed := by
  refine foldlRecOn _ _ (motive := fun s' : FlushState => s'.unflushed = s.unflushed) rfl
    fun s' hs' c _ => ?_
  simp only [burnClaim]
  split <;> exact hs'

theorem unflushed_flushEvent (daa : ℕ) (e : ServiceEvent) (s : FlushState) :
    (s.flushEvent N daa e).unflushed = s.unflushed := by
  cases e with
  | sighting miner =>
    simp only [flushEvent, flushSighting]
    split <;> rfl
  | reset miner preserved => exact unflushed_logStrike _ _ _ _
  | miss m =>
    simp only [flushEvent, flushMiss]
    split
    · exact (unflushed_logStrike _ _ _ _).trans (unflushed_burnClaims daa m.burned s)
    · exact (unflushed_logStrike _ _ _ _).trans (unflushed_burnClaims daa m.burned s)
  | reward r =>
    simp only [flushEvent, flushReward]
    split <;> rfl

/-- The frontier moves to the highest event flushed, the images stay. -/
theorem unflushed_step (s : FlushState) (q : QueuedEvent) :
    (s.step N q).unflushed = (max s.deepCursorDaa q.daa, s.images) := by
  have hprev : (s.sealPrevious N q.daa).unflushed = s.unflushed := by
    rw [sealPrevious]
    split
    · rfl
    · split <;> rfl
  have hevent := unflushed_flushEvent N q.daa q.event
    { s.sealPrevious N q.daa with sealingDaa := some q.daa }
  obtain ⟨hcursor, himages⟩ := Prod.mk.inj (hevent.trans hprev)
  exact Prod.ext (congrArg (max · q.daa) hcursor) himages

/-- The frontier never moves back, and is at or past every event flushed. -/
theorem le_cursor_foldl_step (events : List QueuedEvent) (s : FlushState) :
    s.deepCursorDaa ≤ (events.foldl (step N) s).deepCursorDaa ∧
      ∀ q ∈ events, q.daa ≤ (events.foldl (step N) s).deepCursorDaa := by
  induction events generalizing s with
  | nil => exact ⟨le_refl _, fun _ hq => (by cases hq)⟩
  | cons q events ih =>
    obtain ⟨hle, hall⟩ := ih (s.step N q)
    rw [show (s.step N q).deepCursorDaa = max s.deepCursorDaa q.daa from
      congrArg Prod.fst (unflushed_step N s q)] at hle
    exact ⟨(le_max_left _ _).trans hle,
      forall_mem_cons.mpr ⟨(le_max_right _ _).trans hle, hall⟩⟩

end FlushState

/-- The stores without the persisted images. -/
def ServiceStores.rowsOnly (s : ServiceStores) : ServiceStores :=
  { s with ledgerSnapshot := .empty }

theorem ServiceStores.rowsOnly_writeAll (s : ServiceStores) (ws : List StoreWrite) :
    (s.writeAll ws).rowsOnly = s.rowsOnly.writeAll ws := by
  induction ws generalizing s with
  | nil => rfl
  | cons w ws ih =>
    refine (ih (s.write w)).trans ?_
    cases w <;> rfl

/-- Whether rows are fresh does not depend on the images. -/
theorem CleanOutcome.of_rowsOnly {s s' : ServiceStores} (hrows : s.rowsOnly = s') {daa : ℕ}
    {o : FoldOutcome} (h : CleanOutcome s' daa o) : CleanOutcome s daa o := by
  subst hrows
  refine ⟨h.later, ⟨h.fresh.nodup, fun w hw => ?_⟩, h.counted, h.older⟩
  have := h.fresh.new w hw
  cases w <;> exact this

/-- **Flushing a part of a stack** whose lower part is stored writes its rows and keeps the
state in step. -/
theorem InStep.flushStack {N : Network} (recs : List FoldRecord) :
    ∀ {s : FlushState} {done rest : List FoldRecord} {i : ℕ}, InStep N s →
      StackFacts N (done ++ (recs ++ rest)) →
      s.stores.rowsOnly = ({} : ServiceStores).writeAll (writes N {} done) →
      let flushed := (events N i (replay N {} done) recs).foldl
        (FlushState.step N) s
      InStep N flushed ∧ flushed.stores.rowsOnly
        = ({} : ServiceStores).writeAll (writes N {} (done ++ recs)) := by
  induction recs with
  | nil =>
    intro s done rest i h _ hrows
    rw [append_nil]
    exact ⟨h, hrows⟩
  | cons r recs ih =>
    intro s done rest i h hfacts hrows
    have hclean := (hfacts.clean).of_rowsOnly hrows
    obtain ⟨hstep, hstores, -⟩ := h.flushOutcome hclean (i + 1)
    have hwrites : writes N {} (done ++ [r]) = writes N {} done ++
        (r.apply N (replay N {} done)).outcome.writes (N.daaOf r.hash) := by
      rw [writes_append, writes, writes, append_nil]
    have hrows' := congrArg ServiceStores.rowsOnly hstores
    rw [ServiceStores.rowsOnly_writeAll, hrows, ← ServiceStores.writeAll_append, ← hwrites]
      at hrows'
    have hnext := @ih _ (done ++ [r]) rest (i + 1) hstep (by simpa using hfacts) hrows'
    rw [replay_append] at hnext
    rw [events, foldl_append, append_cons]
    exact hnext

/-! ### The invariant -/

/-- The sync, stores and mirrors of a node belong to a stack of records folded above chain
index `base`, of which the lowest `j` are flushed: their rows are stored, the events of the
others are queued. -/
structure Synced (N : Network) (base : ℕ) (node : Node) (recs : List FoldRecord) (j : ℕ) :
    Prop where
  logged : Logged N base {} node.sync recs
  flushed : j ≤ recs.length
  queue : node.sync.queue
    = events N (base + j) (replay N {} (recs.take j)) (recs.drop j)
  rows : node.stores.rowsOnly
    = ({} : ServiceStores).writeAll (writes N {} (recs.take j))
  inStep : InStep N node.flushState
  passed : ∀ r ∈ recs.take j, N.daaOf r.hash ≤ node.sync.deepCursorDaa
  snapshots : ∀ i snap, node.sync.snapshots.get? i = some snap → base < i

namespace Synced

variable {N : Network} {base j : ℕ} {node : Node} {recs : List FoldRecord}

/-- The records a node folds for added blocks. -/
def batch (N : Network) (node : Node) (pp : Hash) (added : List Hash) : List FoldRecord :=
  added.map fun h => ⟨node.view pp, h, decide (N.daaOf h < node.sync.deepCursorDaa)⟩

/-- Folding added blocks pushes their records and queues their events. -/
theorem foldPath (h : Synced N base node recs j) (path : ChainPath) (pp : Hash) :
    Synced N base (node.foldPath N path pp (base + recs.length))
      (recs ++ batch N node pp path.added) j := by
  obtain ⟨hsync, hreads⟩ := Node.sync_dropSamples path.removed node
  obtain ⟨hqueue, hsnap⟩ := Logged.queue_foldAll path.added (node.dropSamples path.removed)
    (hsync ▸ h.logged) (hreads pp) (by rw [hsync])
  set folded := (Node.indexed (base + recs.length) path.added).foldl (Node.foldAdded N pp)
    (node.dropSamples path.removed)
  have hrows := Node.sameRows_foldPath N path pp (base + recs.length) node
  have hle : j ≤ (recs ++ batch N node pp path.added).length := by
    rw [length_append]
    exact h.flushed.trans (Nat.le_add_right _ _)
  have htake : (recs ++ batch N node pp path.added).take j = recs.take j :=
    take_append_of_le_length h.flushed
  refine ⟨(Node.logged_foldPath h.logged path pp).1, hle, ?_, ?_, hrows.inStep h.inStep, ?_, ?_⟩
  · have hfolded : (node.foldPath N path pp (base + recs.length)).sync.queue
        = folded.sync.queue := by
      simp only [Node.foldPath]
      split <;> rfl
    rw [hfolded, hqueue, hsync, h.queue, htake, drop_append_of_le_length h.flushed,
      events_append, ← replay_append, take_append_drop,
      length_drop, show base + j + (recs.length - j) = base + recs.length by
        have := h.flushed
        omega]
    rfl
  · rw [htake, ← h.rows, hrows.stores]
    rfl
  · rw [htake, hrows.cursor]
    exact h.passed
  · intro i snap hi
    have := get?_capMap hi
    have hi' : folded.sync.snapshots.get? i = some snap := by
      split at this <;> exact this
    rcases hsnap i snap hi' with hold | hnew
    · rw [hsync] at hold
      exact h.snapshots i snap hold
    · exact hnew

/-- **The flush** moves the lowest blocks of the queue to the stores. -/
theorem flushQueue (h : Synced N base node recs j) (hfacts : StackFacts N recs) (bound : ℕ) :
    ∃ j', j ≤ j' ∧ Synced N base (node.flushQueue N bound) recs j' := by
  have hdrop : (recs.drop j).Pairwise fun a b => N.daaOf a.hash < N.daaOf b.hash :=
    hfacts.increasing.sublist (drop_sublist _ _)
  obtain ⟨m, hm, htake, hrest, hdeep⟩ := takeWhile_events bound (base + j)
    (replay N {} (recs.take j)) hdrop
  rw [length_drop] at hm
  rw [← h.queue] at htake hrest
  have hsplit : recs.take j ++ ((recs.drop j).take m ++ recs.drop (j + m)) = recs := by
    rw [← drop_drop, take_append_drop, take_append_drop]
  have htake' : recs.take j ++ (recs.drop j).take m = recs.take (j + m) := take_add.symm
  obtain ⟨hstep, hrows⟩ := InStep.flushStack (i := base + j) ((recs.drop j).take m) h.inStep
    (hsplit.symm ▸ hfacts) h.rows
  rw [← htake, htake'] at hrows
  rw [← htake] at hstep
  obtain ⟨hle, hpassed⟩ := FlushState.le_cursor_foldl_step N (node.sync.queue.takeWhile
    fun q => decide (q.daa + N.finalityDepth ≤ bound)) node.flushState
  obtain ⟨hfinish, hsealing, hstores⟩ := hstep.finish
  have hcursor : ∀ s : FlushState, (s.finish N).deepCursorDaa = s.deepCursorDaa := by
    intro s
    rw [FlushState.finish]
    split <;> rfl
  refine ⟨j + m, Nat.le_add_right _ _, ?_⟩
  refine ⟨h.logged.mono rfl (fun _ _ hx => hx) fun _ _ hx => hx, by have := h.flushed; omega, ?_,
    ?_, ?_, ?_, h.snapshots⟩
  · have hreplay : replay N (replay N {} (recs.take j)) ((recs.drop j).take m)
        = replay N {} (recs.take (j + m)) := by
      rw [← replay_append, htake']
    rw [hreplay, Nat.add_assoc, drop_drop] at hrest
    exact hrest
  · rw [← hrows]
    exact congrArg ServiceStores.rowsOnly hstores
  · have hstate : (node.flushQueue N bound).flushState
        = FlushState.flush N node.flushState (node.sync.queue.takeWhile
            fun q => decide (q.daa + N.finalityDepth ≤ bound)) :=
      congrArg (FlushState.mk _ _ _) hsealing.symm
    rw [hstate]
    exact hfinish
  · intro r hr
    show N.daaOf r.hash ≤ (FlushState.flush N node.flushState _).deepCursorDaa
    rw [FlushState.flush, hcursor]
    rw [← htake'] at hr
    rcases mem_append.mp hr with hr | hr
    · exact (h.passed r hr).trans hle
    · obtain ⟨q, hq, hqle⟩ := hdeep r hr
      rw [← htake] at hq
      exact hqle.trans (hpassed q hq)

end Synced

end KeryxNode
