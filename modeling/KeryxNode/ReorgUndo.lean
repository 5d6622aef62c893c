import KeryxNode.ServiceBond
import KeryxNode.VaultUndo

/-!
# Reorgs through the Undo Log

A node follows the selected chain through reorgs by walking its ledger back to the common
ancestor — the vault through the per-block undo log, everything else from a light snapshot —
and folding the new branch. The abstract machine behind it keeps only a stack of *fold
records*, one per chain block with what the block was folded with; a reorg pops records and
pushes others, and the ledger is the replay of the stack.

## Main results

* `reorg_path_independence`: after any run of covered reorgs the ledger is that of the final
  chain folded from the start, if its blocks were folded with what they get there.
* `reorg_path_dependence`: a warmup block whose fold expires a claim is not undone: a reorg
  over it loses the claim for good.
-/

namespace KeryxNode

open BondBook List OrdMap

variable {L₀ : ServiceLedger} {recs : List FoldRecord} {N : Network} {base : ℕ} {path : ChainPath}
  {node : Node} {s : ServiceLedgerSync} {L : ServiceLedger} {k : ℕ} {v : FoldView}

/-! ### Fold records -/

/-- One folded chain block with what it was folded with. -/
structure FoldRecord where
  view : FoldView
  hash : Hash
  warmup : Bool

namespace FoldRecord

variable (N : Network)

/-- The fold of a record. -/
def apply (r : FoldRecord) (L : ServiceLedger) : Network.BlockFold :=
  N.foldServiceChainBlock r.view L r.hash r.warmup

/-- The undo entry of a record. -/
def undoEntry (r : FoldRecord) (L : ServiceLedger) : VaultUndo :=
  { added := (r.apply N L).added
    misses := (r.apply N L).outcome.misses
    expired := (r.apply N L).outcome.expired }

/-- The ledger a stack of records leaves, oldest first. -/
def replay (L₀ : ServiceLedger) (recs : List FoldRecord) : ServiceLedger :=
  recs.foldl (fun L r => (r.apply N L).ledger) L₀

@[simp] theorem replay_nil (L₀ : ServiceLedger) : replay N L₀ [] = L₀ := rfl

@[simp] theorem replay_append (L₀ : ServiceLedger) (recs recs' : List FoldRecord) :
    replay N L₀ (recs ++ recs') = replay N (replay N L₀ recs) recs' :=
  foldl_append

/-- The oldest claim of every deque, the block's own claims included, is still inside the
burnable window at the block. -/
def NothingExpires (r : FoldRecord) (L : ServiceLedger) : Prop :=
  ∀ m c, (claimsOf L.vault m ++
      ((N.foldInput r.view.mirrors.burned r.hash).escrows.filter
        fun e => decide (e.1 = m)).map Prod.snd).head? = some c →
    N.daaOf r.hash < c.daa + N.serviceBurnableWindowDaa

/-- A record whose undo entry inverts it: a warmup record has to expire nothing. -/
def Reversible (r : FoldRecord) (L : ServiceLedger) : Prop :=
  r.warmup = true → r.NothingExpires N L

end FoldRecord

open FoldRecord (replay replay_append)

/-- Equal request and bond books; the configuration is installed by every fold. -/
structure SameBooks (L M : ServiceLedger) : Prop where
  request : L.toRequestBook = M.toRequestBook
  bond : L.toBondBook = M.toBondBook

namespace SameBooks

variable {M : ServiceLedger}

theorem refl (L : ServiceLedger) : SameBooks L L := ⟨rfl, rfl⟩

theorem configure_eq (h : SameBooks L M) (c : LedgerConfig) :
    L.configure c = M.configure c := by
  simp only [ServiceLedger.configure, h.request, h.bond]

theorem vault_eq (h : SameBooks L M) : L.vault = M.vault := by
  rw [h.bond]

theorem lightSnapshot_eq (h : SameBooks L M) :
    L.lightSnapshot = M.lightSnapshot := by
  simp only [ServiceLedger.lightSnapshot, h.request, h.bond]

/-- A fold reads only the books. -/
theorem apply (h : SameBooks L M) (N : Network) (r : FoldRecord) :
    SameBooks (r.apply N L).ledger (r.apply N M).ledger ∧
      r.undoEntry N L = r.undoEntry N M ∧ (r.apply N L).outcome = (r.apply N M).outcome := by
  simp only [FoldRecord.undoEntry, FoldRecord.apply, Network.foldServiceChainBlock, h.configure_eq]
  split
  · exact ⟨h, rfl, rfl⟩
  · exact ⟨refl _, rfl, rfl⟩

end SameBooks

/-! ### Undoing one record -/

/-- If no deque has a stale front, the purge takes nothing. -/
theorem purgeExpired_nil {b : BondBook} {burnable daa : ℕ}
    (h : ∀ m c, (claimsOf b.vault m).head? = some c → daa < c.daa + burnable) :
    (b.purgeExpired burnable daa).2 = [] := by
  rw [purgeExpired, flatMap_eq_nil_iff]
  rintro ⟨m, cs⟩ hmem
  have hcs : claimsOf b.vault m = cs := by
    rw [claimsOf, get?_eq_some_iff.mpr hmem]
    rfl
  cases cs with
  | nil => rfl
  | cons c cs =>
    have hc := h m c (by rw [hcs]; rfl)
    have hstale : stale burnable daa c = false := decide_eq_false (by omega)
    simp [hstale]

namespace FoldRecord

variable (N : Network)

/-- The vault is tidy after the fold of a record. -/
theorem tidy_apply (r : FoldRecord) (h : Tidy L.vault) :
    Tidy (r.apply N L).ledger.vault := by
  simp only [apply, Network.foldServiceChainBlock]
  split
  · exact h
  · split <;> exact tidy_foldInner _ _ _ _ _

theorem tidy_replay {L₀ : ServiceLedger} (h : Tidy L₀.vault) (recs : List FoldRecord) :
    Tidy (replay N L₀ recs).vault := by
  induction recs generalizing L₀ with
  | nil => exact h
  | cons r recs ih => exact ih (r.tidy_apply N h)

/-- **One undo step** inverts the fold of a reversible record. -/
theorem undoVault_apply (r : FoldRecord) (h : Tidy L.vault) (hrev : r.Reversible N L) :
    undoVault (r.apply N L).ledger.vault (r.undoEntry N L).added (r.undoEntry N L).misses
      (r.undoEntry N L).expired = some L.vault := by
  obtain ⟨v, hash, warmup⟩ := r
  simp only [undoEntry, apply, Network.foldServiceChainBlock]
  by_cases hactive : N.daaOf hash < N.pomV3Activation
  · simp only [if_pos hactive]
    rfl
  · simp only [if_neg hactive]
    cases warmup with
    | false =>
      exact undoVault_foldInner (L.configure N.ledgerConfig) _ _ _ h
    | true =>
      have hkeep : ∀ e ∈ (N.foldCall v hash).input.escrows,
          v.mirrors.burned.contains e.2.outpoint = false := by
        intro e he
        have := (mem_filter.mp he).2
        simpa using this
      refine undoVault_foldInner_warmup (L.configure N.ledgerConfig) _ _ _ h hkeep ?_
      refine purgeExpired_nil fun m c hc => hrev rfl m c ?_
      rw [vault_admitEscrows, filter_eq_self.mpr fun e he => by simp [hkeep e he],
        claimsOf_foldl_pushBack] at hc
      exact hc

end FoldRecord

/-! ### Walking back -/

/-- What the sync holds about a stack of records folded above chain index `base`: the ledger
is the replay, and every snapshot and undo entry it retains is the one of its block. -/
structure Logged (N : Network) (base : ℕ) (L₀ : ServiceLedger) (s : ServiceLedgerSync)
    (recs : List FoldRecord) : Prop where
  ledger : SameBooks s.ledger (replay N L₀ recs)
  snapshots : ∀ k snap, s.snapshots.get? (base + k) = some snap →
    snap = (replay N L₀ (recs.take k)).lightSnapshot
  snapshots_le : ∀ i snap, s.snapshots.get? i = some snap → i ≤ base + recs.length
  undo : ∀ k r u, recs[k]? = some r → s.undo.get? (base + k + 1) = some u →
    u = r.undoEntry N (replay N L₀ (recs.take k))

/-- Undoing the newest `n` records of a stack restores the vault below them. -/
theorem undo_records (hlog : Logged N base L₀ s recs) (htidy : Tidy L₀.vault) :
    ∀ (n : ℕ) (L : ServiceLedger), k + n ≤ recs.length →
      L.vault = (replay N L₀ (recs.take (k + n))).vault →
      (∀ j r, k ≤ j → j < k + n → recs[j]? = some r →
        (∃ u, s.undo.get? (base + j + 1) = some u) ∧
          r.Reversible N (replay N L₀ (recs.take j))) →
      ∃ L', (List.range' (base + k + 1) n).reverse.foldlM s.undoIndex L = some L' ∧
        L'.toLedgerConfig = L.toLedgerConfig ∧
        L'.vault = (replay N L₀ (recs.take k)).vault
  | 0, L, _, hvault, _ => ⟨L, rfl, rfl, hvault⟩
  | n + 1, L, hlen, hvault, hrec => by
    have hlt : k + n < recs.length := by omega
    obtain ⟨⟨u, hu⟩, hrev⟩ := hrec (k + n) recs[k + n] (by omega) (by omega)
      (getElem?_eq_getElem hlt)
    have hentry := hlog.undo (k + n) recs[k + n] u (getElem?_eq_getElem hlt) hu
    -- The newest record is the last of the first `k + n + 1`.
    have htake : recs.take (k + (n + 1)) = recs.take (k + n) ++ [recs[k + n]] :=
      (take_concat_get' recs (k + n) hlt).symm
    rw [htake, replay_append] at hvault
    have hundo := FoldRecord.undoVault_apply N recs[k + n]
      (FoldRecord.tidy_replay N htidy (recs.take (k + n))) hrev
    obtain ⟨L', hfold, hconfig, hvault'⟩ := undo_records hlog htidy n
      { L with toBondBook := { L.toBondBook with
        vault := (replay N L₀ (recs.take (k + n))).vault } }
      (by omega) rfl fun j r hkj hj => hrec j r hkj (by omega)
    refine ⟨L', ?_, hconfig, hvault'⟩
    have hindex : s.undoIndex L (base + k + 1 + n)
        = some { L with toBondBook := { L.toBondBook with
            vault := (replay N L₀ (recs.take (k + n))).vault } } := by
      rw [show base + k + 1 + n = base + (k + n) + 1 by omega]
      simp only [ServiceLedgerSync.undoIndex, hu, ServiceLedger.undoVault, hvault, hentry]
      exact congrArg (Option.map _) hundo
    rw [range'_concat, reverse_append, reverse_singleton,
      singleton_append, foldlM_cons, Nat.one_mul, hindex]
    exact hfold

/-- Rewinding a covered reorg restores the ledger of the common ancestor. -/
theorem rewind_spec (hlog : Logged N base L₀ s recs) (htidy : Tidy L₀.vault)
    (htip : s.tip = some (base + recs.length)) (hk : k ≤ recs.length)
    (hundoable : s.undoable (base + k) = true) (hrev : ∀ j r, k ≤ j → recs[j]? = some r →
      r.Reversible N (replay N L₀ (recs.take j))) :
    ∃ L, s.rewind (base + k) = some L ∧ SameBooks L (replay N L₀ (recs.take k)) := by
  simp only [ServiceLedgerSync.undoable, htip, Option.any_some, Bool.and_eq_true,
    all_eq_true, contains_eq_true, mem_range'_1] at hundoable
  obtain ⟨⟨-, snap, hsnap⟩, hall⟩ := hundoable
  have hspan : base + recs.length - (base + k) = recs.length - k := by omega
  obtain ⟨L, hfold, -, hvault⟩ := undo_records (k := k) hlog htidy (recs.length - k) s.ledger
    (by omega)
    (by rw [show k + (recs.length - k) = recs.length by omega, take_length]
        exact hlog.ledger.vault_eq)
    (fun j r hkj hj hr => by
      have hu : ∃ u, s.undo.get? (base + j + 1) = some u := hall (base + j + 1) (by omega)
      exact ⟨hu, hrev j r hkj hr⟩)
  refine ⟨L.restoreLight snap, ?_, ?_⟩
  · simp only [ServiceLedgerSync.rewind, htip, hsnap, hspan, hfold, Option.map_some]
  · rw [hlog.snapshots k snap hsnap]
    constructor
    · rfl
    · simp only [ServiceLedger.restoreLight, ServiceLedger.lightSnapshot, hvault]

/-! ### Folding a path -/

/-- Two views a fold cannot tell apart. -/
structure SameReads (v w : FoldView) : Prop where
  chain : v.chain = w.chain
  ownPp : v.ownPp = w.ownPp
  burned : v.mirrors.burned = w.mirrors.burned
  standing : v.mirrors.standing = w.mirrors.standing
  imported : v.mirrors.importedProducers = w.mirrors.importedProducers

theorem SameReads.trans {u w : FoldView} (h : SameReads u v) (h' : SameReads v w) :
    SameReads u w :=
  ⟨h.chain.trans h'.chain, h.ownPp.trans h'.ownPp, h.burned.trans h'.burned,
    h.standing.trans h'.standing, h.imported.trans h'.imported⟩

/-- A fold reads the chain, the pruning point, the burned outpoints, the standing index and
the imported producers, and nothing else of its view. -/
theorem SameReads.foldCall {w : FoldView} (h : SameReads v w) (N : Network) (hash : Hash) :
    N.foldCall v hash = N.foldCall w hash := by
  simp only [Network.foldCall, Network.serviceStandingAt, h.chain, h.ownPp, h.burned,
    h.standing, h.imported]

theorem foldServiceChainBlock_congr {w : FoldView} (h : SameReads v w) (L : ServiceLedger)
    (hash : Hash) (warmup : Bool) :
    N.foldServiceChainBlock v L hash warmup = N.foldServiceChainBlock w L hash warmup := by
  simp only [Network.foldServiceChainBlock, h.foldCall, h.burned]

/-- Two records of a block with the same input, standings and cohorts, the same burned outpoints
and the same warmup flag. -/
structure SameCall (N : Network) (r r' : FoldRecord) : Prop where
  hash : r.hash = r'.hash
  warmup : r.warmup = r'.warmup
  burned : r.view.mirrors.burned = r'.view.mirrors.burned
  call : N.foldCall r.view r.hash = N.foldCall r'.view r'.hash

/-- Such records are folded alike. -/
theorem SameCall.apply {r r' : FoldRecord} (h : SameCall N r r') (L : ServiceLedger) :
    r.apply N L = r'.apply N L := by
  obtain ⟨hhash, hwarmup, hburned, hcall⟩ := h
  rw [hhash] at hcall
  simp only [FoldRecord.apply, Network.foldServiceChainBlock, hcall, hwarmup, hburned, hhash]

/-- Stacks of such records leave the same ledger. -/
theorem replay_congr {recs' : List FoldRecord} (h : Forall₂ (SameCall N) recs recs')
    (L : ServiceLedger) : replay N L recs = replay N L recs' := by
  induction h generalizing L with
  | nil => rfl
  | cons hr _ ih =>
    simp only [replay, foldl_cons, hr.apply L]
    exact ih _

namespace Node

theorem indexed_cons (common : ℕ) (h : Hash) (added : List Hash) :
    indexed common (h :: added) = (common + 1, h) :: indexed (common + 1) added := by
  simp only [indexed, zipIdx_cons, map_cons, Nat.zero_add]
  congr 1
  rw [zipIdx_succ, map_map]
  refine map_congr_left fun p _ => ?_
  simp only [Function.comp, Prod.mk.injEq, and_true]
  omega

/-- A sample leaves everything a fold reads, and the sync, unchanged. -/
theorem foldAdded_eq (N : Network) (pp : Hash) (node : Node) (b : ℕ × Hash) :
    let fold := N.foldServiceChainBlock (node.view pp) node.sync.ledger b.2
      (decide (N.daaOf b.2 < node.sync.deepCursorDaa))
    SameReads ((node.foldAdded N pp b).view pp) (node.view pp) ∧
      (node.foldAdded N pp b).sync = { node.sync with
        ledger := fold.ledger
        undo := node.sync.undo.insert b.1
          { added := fold.added, misses := fold.outcome.misses, expired := fold.outcome.expired }
        queue := node.sync.queue ++ fold.outcome.queued b.1 (N.daaOf b.2)
        snapshots := node.sync.snapshots.insert b.1 fold.ledger.lightSnapshot } := by
  simp only [foldAdded]
  split
  · exact ⟨⟨rfl, rfl, rfl, rfl, rfl⟩, rfl⟩
  · exact ⟨⟨rfl, rfl, rfl, rfl, rfl⟩, rfl⟩

end Node

/-- Folding one added block pushes its record and leaves what the next fold reads. -/
theorem Logged.foldAdded (hlog : Logged N base L₀ node.sync recs) {pp : Hash} {cursor : ℕ}
    (hv : SameReads (node.view pp) v) (hcursor : node.sync.deepCursorDaa = cursor) (h : Hash) :
    let next := node.foldAdded N pp (base + recs.length + 1, h)
    Logged N base L₀ next.sync (recs ++ [⟨v, h, decide (N.daaOf h < cursor)⟩]) ∧
      SameReads (next.view pp) v ∧ next.sync.deepCursorDaa = cursor := by
  obtain ⟨hreads, hsync⟩ := Node.foldAdded_eq N pp node (base + recs.length + 1, h)
  rw [foldServiceChainBlock_congr hv, hcursor] at hsync
  refine ⟨?_, hreads.trans hv, hsync ▸ hcursor⟩
  rw [hsync]
  set r : FoldRecord := ⟨v, h, decide (N.daaOf h < cursor)⟩
  obtain ⟨hledger, hentry, -⟩ := hlog.ledger.apply N r
  have htake : ∀ k ≤ recs.length, (recs ++ [r]).take k = recs.take k := fun k hk =>
    take_append_of_le_length hk
  constructor
  · rw [replay_append]
    exact hledger
  · intro k snap hsnap
    rw [get?_insert] at hsnap
    split at hsnap
    · next hk =>
      obtain rfl : k = recs.length + 1 := by omega
      rw [take_of_length_le (by simp), replay_append]
      exact (Option.some.inj hsnap).symm.trans hledger.lightSnapshot_eq
    · have hle := hlog.snapshots_le _ _ hsnap
      rw [htake k (by omega)]
      exact hlog.snapshots k snap hsnap
  · intro i snap hsnap
    rw [get?_insert] at hsnap
    rw [length_append, length_singleton]
    split at hsnap
    · omega
    · have := hlog.snapshots_le i snap hsnap
      omega
  · intro k r' u hr' hu
    rw [get?_insert] at hu
    have hlt : k < recs.length + 1 := by
      have := (List.getElem?_eq_some_iff.mp hr').1
      simpa using this
    rw [htake k (by omega)]
    split at hu
    · next hk =>
      obtain rfl : k = recs.length := by omega
      rw [getElem?_append_right (le_refl _), Nat.sub_self] at hr'
      cases hr'
      rw [take_length]
      exact (Option.some.inj hu).symm.trans hentry
    · next hk =>
      rw [getElem?_append_left (by omega)] at hr'
      exact hlog.undo k r' u hr' hu

namespace Node

/-- The records of the blocks a path adds: all are folded with the view the node has once the
path is committed, as warmup if they lie below the persisted frontier. -/
def batchRecords (N : Network) (node : Node) (path : ChainPath) (pp : Hash) :
    List FoldRecord :=
  path.added.map fun h =>
    { view := { chain := node.chain.applyChanges path, ownPp := pp, mirrors := node.mirrors }
      hash := h
      warmup := decide (N.daaOf h < node.sync.deepCursorDaa) }

end Node

/-- Folding the added blocks pushes their records in order. -/
theorem Logged.foldAll {pp : Hash} {cursor : ℕ} :
    ∀ (added : List Hash) (node : Node) {recs : List FoldRecord},
      Logged N base L₀ node.sync recs → SameReads (node.view pp) v →
      node.sync.deepCursorDaa = cursor →
      Logged N base L₀
        ((Node.indexed (base + recs.length) added).foldl (Node.foldAdded N pp) node).sync
        (recs ++ added.map fun h => ⟨v, h, decide (N.daaOf h < cursor)⟩)
  | [], node, recs, hlog, _, _ => by simpa [Node.indexed] using hlog
  | h :: added, node, recs, hlog, hv, hcursor => by
    obtain ⟨hnext, hreads, hcursor'⟩ := hlog.foldAdded hv hcursor h
    have hall := Logged.foldAll added _ hnext hreads hcursor'
    rw [Node.indexed_cons, map_cons]
    rwa [length_append, append_assoc, ← Nat.add_assoc] at hall

/-- Entries of a capped map are entries of the map. -/
theorem get?_capMap {V : Type} {cap : ℕ} {m : OrdMap ℕ V} {i : ℕ} {x : V}
    (h : (capMap cap m).get? i = some x) : m.get? i = some x := by
  rw [get?_eq_some_iff] at h ⊢
  exact (popFirstTo_sublist cap m.entries).subset h

/-- The log of a sync that has lost entries is still a log. -/
theorem Logged.mono {s' : ServiceLedgerSync} (h : Logged N base L₀ s recs)
    (hledger : s'.ledger = s.ledger)
    (hsnap : ∀ i x, s'.snapshots.get? i = some x → s.snapshots.get? i = some x)
    (hundo : ∀ i x, s'.undo.get? i = some x → s.undo.get? i = some x) :
    Logged N base L₀ s' recs where
  ledger := hledger ▸ h.ledger
  snapshots k snap hk := h.snapshots k snap (hsnap _ _ hk)
  snapshots_le i snap hi := h.snapshots_le i snap (hsnap _ _ hi)
  undo k r u hr hu := h.undo k r u hr (hundo _ _ hu)

/-- The log below the common ancestor, once the ledger is walked back to it. -/
theorem Logged.truncate (hlog : Logged N base L₀ s recs) (hk : k ≤ recs.length)
    (hL : SameBooks L (replay N L₀ (recs.take k))) :
    Logged N base L₀ ({ s with ledger := L }.truncate (base + k)) (recs.take k) := by
  constructor
  · exact hL
  · intro j snap hsnap
    obtain ⟨hget, hle⟩ := of_get?_filter hsnap
    rw [take_take, min_eq_left (by have := of_decide_eq_true hle; omega)]
    exact hlog.snapshots j snap hget
  · intro i snap hsnap
    obtain ⟨-, hle⟩ := of_get?_filter hsnap
    rw [length_take, min_eq_left hk]
    exact of_decide_eq_true hle
  · intro j r u hr hu
    obtain ⟨hget, -⟩ := of_get?_filter hu
    have hj : j < k := by
      have := (List.getElem?_eq_some_iff.mp hr).1
      rw [length_take] at this
      omega
    rw [take_take, min_eq_left hj.le]
    rw [getElem?_take_of_lt hj] at hr
    exact hlog.undo j r u hr hget

/-! ### One committed path -/

/-- The node is in step with a stack of records: its chain above `base` is the stack's, and
its sync is logged at the tip. -/
structure SyncLog (N : Network) (base : ℕ) (L₀ : ServiceLedger) (node : Node)
    (recs : List FoldRecord) : Prop where
  logged : Logged N base L₀ node.sync recs
  tip : node.sync.tip = some (base + recs.length)
  length : node.chain.hashes.length = base + recs.length + 1
  hashes : node.chain.hashes.drop (base + 1) = recs.map FoldRecord.hash

/-- The stack after a path: the removed blocks are popped, the added ones pushed. -/
def nextRecords (N : Network) (node : Node) (recs : List FoldRecord) (path : ChainPath)
    (pp : Hash) : List FoldRecord :=
  recs.take (recs.length - path.removed.length) ++ node.batchRecords N path pp

/-- A path the undo log covers and can reverse: it removes only blocks of the stack, the
retained chain, snapshots and undo entries reach the common ancestor, the new tip is past
`pom_v3_activation`, and no removed block was folded as warmup with a claim expiring in it. -/
structure CoveredStep (N : Network) (base : ℕ) (L₀ : ServiceLedger) (node : Node)
    (recs : List FoldRecord) (path : ChainPath) : Prop where
  removed_le : path.removed.length ≤ recs.length
  retained : node.chain.retained ≤ base + (recs.length - path.removed.length)
  covered : path.removed = [] ∨
    node.sync.undoable (base + (recs.length - path.removed.length)) = true
  tip_active : ∀ h ∈ (node.chain.applyChanges path).hashes.getLast?, N.pomV3Activation ≤ N.daaOf h
  reversible : ∀ j r, recs.length - path.removed.length ≤ j → recs[j]? = some r →
    r.Reversible N (replay N L₀ (recs.take j))

namespace Node

theorem sync_dropSample (node : Node) (h : Hash) :
    (node.dropSample h).sync = node.sync ∧
      ∀ pp, SameReads ((node.dropSample h).view pp) (node.view pp) := by
  unfold dropSample
  split
  · exact ⟨rfl, fun _ => ⟨rfl, rfl, rfl, rfl, rfl⟩⟩
  · exact ⟨rfl, fun _ => ⟨rfl, rfl, rfl, rfl, rfl⟩⟩

/-- Forgetting images leaves the sync and everything a fold reads unchanged. -/
theorem sync_dropSamples (removed : List Hash) (node : Node) :
    (node.dropSamples removed).sync = node.sync ∧
      ∀ pp, SameReads ((node.dropSamples removed).view pp) (node.view pp) := by
  induction removed generalizing node with
  | nil => exact ⟨rfl, fun _ => ⟨rfl, rfl, rfl, rfl, rfl⟩⟩
  | cons h removed ih =>
    obtain ⟨hsync, hreads⟩ := ih (node.dropSample h)
    obtain ⟨hsync₁, hreads₁⟩ := sync_dropSample node h
    exact ⟨hsync.trans hsync₁, fun pp => (hreads pp).trans (hreads₁ pp)⟩

theorem chain_foldPath (N : Network) (path : ChainPath) (pp : Hash) (common : ℕ) (node : Node) :
    (node.foldPath N path pp common).chain = node.chain := by
  have hadded (l : List (ℕ × Hash)) (n : Node) : (l.foldl (foldAdded N pp) n).chain = n.chain :=
    foldlRecOn (motive := fun m => m.chain = n.chain) l _ rfl fun m hm b _ =>
      (foldAdded_eq N pp m b).1.chain.trans hm
  have hdrop : (node.dropSamples path.removed).chain = node.chain :=
    ((sync_dropSamples path.removed node).2 pp).chain
  simp only [foldPath]
  split <;> exact (hadded _ _).trans hdrop

/-- Folding a path on a synced ledger keeps the log and moves the tip. -/
theorem logged_foldPath {N : Network} {base : ℕ} {L₀ : ServiceLedger} {node : Node}
    {recs : List FoldRecord} (hlog : Logged N base L₀ node.sync recs) (path : ChainPath)
    (pp : Hash) :
    let folded := node.foldPath N path pp (base + recs.length)
    Logged N base L₀ folded.sync
        (recs ++ path.added.map fun h =>
          ⟨node.view pp, h, decide (N.daaOf h < node.sync.deepCursorDaa)⟩) ∧
      folded.sync.tip = some (base + recs.length + path.added.length) := by
  obtain ⟨hsync, hreads⟩ := sync_dropSamples path.removed node
  have hall := Logged.foldAll path.added (node.dropSamples path.removed)
    (hsync ▸ hlog) (hreads pp) (by rw [hsync])
  refine ⟨hall.mono ?_ ?_ ?_, rfl⟩
  · simp only [foldPath]
    split <;> rfl
  · intro i x hx
    have := get?_capMap hx
    split at this <;> exact this
  · intro i x hx
    have := get?_capMap hx
    split at this <;> exact this

end Node

section

variable (h : SyncLog N base L₀ node recs)
include h

/-- Syncing to a covered common ancestor succeeds and leaves the log below it. -/
theorem SyncLog.syncTo (htidy : Tidy L₀.vault) (hstep : CoveredStep N base L₀ node recs path)
    (pp : Hash) (chain : SelectedChain) :
    let k := recs.length - path.removed.length
    ∃ s, { node with chain := chain }.syncTo N (base + k) pp = some s ∧
      Logged N base L₀ (s.truncate (base + k)) (recs.take k) ∧
      s.deepCursorDaa = node.sync.deepCursorDaa ∧
      s.queue = (node.sync.dropQueueAbove (base + k)).queue ∧
      s.snapshots = node.sync.snapshots := by
  intro k
  have hk : k ≤ recs.length := Nat.sub_le _ _
  simp only [Node.syncTo]
  by_cases hext : node.sync.tip = some (base + k)
  · -- An extension: the ledger already is the one of the common ancestor.
    have hkall : k = recs.length := by
      have := Option.some.inj (h.tip.symm.trans hext)
      omega
    refine ⟨node.sync.dropQueueAbove (base + k), if_pos hext, ?_, rfl, rfl, rfl⟩
    have hlog := h.logged.truncate hk (L := node.sync.ledger)
      (by rw [hkall, take_length]; exact h.logged.ledger)
    exact hlog.mono rfl (fun _ _ => id) fun _ _ => id
  · have hcov : node.sync.undoable (base + k) = true := by
      rcases hstep.covered with hnil | hcov
      · refine absurd ?_ hext
        rw [h.tip]
        simp only [k, hnil, length_nil, Nat.sub_zero]
      · exact hcov
    obtain ⟨L, hrewind, hL⟩ := rewind_spec h.logged htidy h.tip hk hcov hstep.reversible
    refine ⟨{ node.sync.dropQueueAbove (base + k) with ledger := L }, ?_,
      (h.logged.truncate hk hL).mono rfl (fun _ _ => id) fun _ _ => id, rfl, rfl, rfl⟩
    exact (if_neg hext).trans ((if_pos hcov).trans (congrArg (Option.map _) hrewind))

/-- The length of the chain after a path that removes blocks of the stack. -/
theorem SyncLog.length_applyChanges (hle : path.removed.length ≤ recs.length) :
    (node.chain.applyChanges path).hashes.length
      = base + (recs.length - path.removed.length) + path.added.length + 1 := by
  simp only [SelectedChain.applyChanges, length_append, length_take, h.length]
  omega

/-- The chain above the base after such a path. -/
theorem SyncLog.hashes_applyChanges (hle : path.removed.length ≤ recs.length) :
    (node.chain.applyChanges path).hashes.drop (base + 1)
      = (recs.map FoldRecord.hash).take (recs.length - path.removed.length) ++ path.added := by
  have hlen := h.length
  simp only [SelectedChain.applyChanges]
  rw [drop_append_of_le_length (by rw [length_take]; omega), drop_take, h.hashes,
    show node.chain.hashes.length - path.removed.length - (base + 1)
      = recs.length - path.removed.length by omega]

/-- A covered step runs through: it syncs to the common ancestor, folds the added blocks and
flushes below the new tip. -/
theorem SyncLog.resolve_eq (htidy : Tidy L₀.vault) (hstep : CoveredStep N base L₀ node recs path)
    (pp : Hash) :
    let k := recs.length - path.removed.length
    ∃ (s : ServiceLedgerSync) (tipHash : Hash),
      (node.chain.applyChanges path).hashes.getLast? = some tipHash ∧
      Logged N base L₀ (s.truncate (base + k)) (recs.take k) ∧
      s.deepCursorDaa = node.sync.deepCursorDaa ∧
      s.queue = (node.sync.dropQueueAbove (base + k)).queue ∧
      s.snapshots = node.sync.snapshots ∧
      node.resolveVirtual N path pp =
        some (({ node with
            chain := node.chain.applyChanges path
            sync := s.truncate (base + k) }.foldPath N path pp (base + k)).flushQueue N
          (N.daaOf tipHash)) := by
  intro k
  set chain := node.chain.applyChanges path with hchain
  obtain ⟨tipHash, hlast, hget⟩ := chain.getTip?_eq_some
    (h.length_applyChanges hstep.removed_le) (hstep.retained.trans (Nat.le_add_right _ _))
  have hactive : ¬ N.daaOf tipHash < N.pomV3Activation :=
    not_lt.mpr (hstep.tip_active tipHash hlast)
  obtain ⟨s, hsync, hlog, hcursor, hqueue, hsnap⟩ := h.syncTo htidy hstep pp chain
  refine ⟨s, tipHash, hlast, hlog, hcursor, hqueue, hsnap, ?_⟩
  simp only [Node.resolveVirtual, Node.advanceServiceLedger, ← hchain, hget, if_neg hactive]
  rw [show base + k + path.added.length - path.added.length = base + k by omega, hsync]
  rfl

/-- **One committed path**: a covered step does not panic and keeps the node in step with the
stack. -/
theorem SyncLog.resolve (htidy : Tidy L₀.vault) (hstep : CoveredStep N base L₀ node recs path)
    (pp : Hash) :
    ∃ node', node.resolveVirtual N path pp = some node' ∧
      SyncLog N base L₀ node' (nextRecords N node recs path pp) := by
  obtain ⟨s, tipHash, -, hlog, hcursor, -, -, hresolve⟩ := h.resolve_eq htidy hstep pp
  set k := recs.length - path.removed.length with hkdef
  have hk : k ≤ recs.length := Nat.sub_le _ _
  have hle := hstep.removed_le
  -- The folded path of the truncated sync, before the flush.
  set synced : Node := { node with
    chain := node.chain.applyChanges path, sync := s.truncate (base + k) }
  have hlen' : (recs.take k).length = k := by rw [length_take, min_eq_left hk]
  obtain ⟨hfolded, htip'⟩ := @Node.logged_foldPath N base L₀ synced (recs.take k) hlog path pp
  rw [hlen'] at hfolded htip'
  refine ⟨_, hresolve, ?_⟩
  have hrecs : nextRecords N node recs path pp = recs.take k ++ path.added.map fun h =>
      ⟨synced.view pp, h, decide (N.daaOf h < synced.sync.deepCursorDaa)⟩ := by
    rw [nextRecords, show synced.sync.deepCursorDaa = s.deepCursorDaa from rfl,
      hcursor]
    rfl
  have hchain' : ((synced.foldPath N path pp (base + k)).flushQueue N (N.daaOf tipHash)).chain
      = node.chain.applyChanges path := Node.chain_foldPath N path pp (base + k) synced
  have hnext : (nextRecords N node recs path pp).length = k + path.added.length := by
    rw [hrecs, length_append, hlen', length_map]
  refine ⟨?_, ?_, ?_, ?_⟩
  · rw [hrecs]
    exact hfolded.mono rfl (fun _ _ => id) fun _ _ => id
  · rw [hnext, ← Nat.add_assoc]
    exact htip'
  · rw [hchain', h.length_applyChanges hle]
    omega
  · rw [hchain', h.hashes_applyChanges hle, hrecs, map_append, map_map, map_take]
    congr 1
    exact (map_id _).symm

end

/-! ### Runs -/

/-- A run of committed paths, beside the stack of records it leaves. -/
def resolveAll (N : Network) :
    Node × List FoldRecord → List (ChainPath × Hash) → Option (Node × List FoldRecord)
  | s, [] => some s
  | s, step :: steps =>
    (s.1.resolveVirtual N step.1 step.2).bind fun node =>
      resolveAll N (node, nextRecords N s.1 s.2 step.1 step.2) steps

/-- A run all of whose steps are covered and reversible. -/
inductive CoveredRun (N : Network) (base : ℕ) (L₀ : ServiceLedger) :
    Node × List FoldRecord → List (ChainPath × Hash) → Prop
  | nil (s : Node × List FoldRecord) : CoveredRun N base L₀ s []
  | cons {node : Node} {recs : List FoldRecord} {path : ChainPath} {pp : Hash}
      {steps : List (ChainPath × Hash)} (step : CoveredStep N base L₀ node recs path)
      (rest : ∀ node', node.resolveVirtual N path pp = some node' →
        CoveredRun N base L₀ (node', nextRecords N node recs path pp) steps) :
      CoveredRun N base L₀ (node, recs) ((path, pp) :: steps)

/-- A covered run does not panic and keeps the node in step with the stack. -/
theorem SyncLog.resolveAll (htidy : Tidy L₀.vault) {s : Node × List FoldRecord}
    {steps : List (ChainPath × Hash)} (hrun : CoveredRun N base L₀ s steps)
    (h : SyncLog N base L₀ s.1 s.2) :
    ∃ s', KeryxNode.resolveAll N s steps = some s' ∧ SyncLog N base L₀ s'.1 s'.2 := by
  induction hrun with
  | nil s => exact ⟨s, rfl, h⟩
  | cons step rest ih =>
    obtain ⟨node', hresolve, hnext⟩ := h.resolve htidy step _
    obtain ⟨s', hall, hlog⟩ := ih node' hresolve hnext
    refine ⟨s', ?_, hlog⟩
    simp only [KeryxNode.resolveAll, hresolve]
    exact hall

/-- **Reorg path independence**: a node synced at chain index `base` that follows any run of
covered, reversible paths never panics in an undo. It ends with the ledger that folding the blocks
of its final chain, in order, leaves of the ledger it started from, if each of them was folded with
what it gets there: the same input, standings and cohorts, the same burned outpoints and the same
warmup flag. -/
theorem reorg_path_independence {N : Network} {base : ℕ} {start : Node}
    {steps : List (ChainPath × Hash)} (hstart : SyncLog N base start.sync.ledger start [])
    (htidy : Tidy start.sync.ledger.vault)
    (hrun : CoveredRun N base start.sync.ledger (start, []) steps) :
    ∃ node recs, resolveAll N (start, []) steps = some (node, recs) ∧
      node.chain.hashes.drop (base + 1) = recs.map FoldRecord.hash ∧
      ∀ pp, let direct := start.batchRecords N { added := node.chain.hashes.drop (base + 1) } pp
        Forall₂ (SameCall N) recs direct →
          SameBooks node.sync.ledger (FoldRecord.replay N start.sync.ledger direct) := by
  obtain ⟨⟨node, recs⟩, hall, hlog⟩ := SyncLog.resolveAll htidy hrun hstart
  refine ⟨node, recs, hall, hlog.hashes, fun pp hsame => ?_⟩
  rw [← replay_congr hsame]
  exact hlog.logged.ledger

/-! ### A reorg over a warmup block -/

/-- A block with the given score and no content. -/
def emptyBlock (daa : ℕ) (parent : Hash) : Block :=
  { daaScore := daa, blueScore := daa, pruningPoint := 0, selectedParent := some parent }

/-- A block whose coinbase locks one escrow claim of the producer with payout version 7. -/
def claimBlock (daa : ℕ) (parent : Hash) : Block :=
  { emptyBlock daa parent with
    mergesetBlues := [{ hash := 100, pomTier := 0, subsidy := 1, scriptPublicKey := ⟨7, []⟩
                        escrowPubkey := some 50 }]
    coinbaseId := 1000
    coinbaseOutputs := [{ value := 10, csvEscrowPubkey := some 50 }] }

/-- Block 1 locks a claim at score 1; blocks 2 and 3 compete on top of it, at scores 2001 and
2000, and block 4 with a chain of 5 and 6, at low scores. The burnable window of the test network
is 2000. -/
def reorgNetwork : Network :=
  .ofBlocks testnetParams
    [(0, { emptyBlock 0 0 with selectedParent := none }), (1, claimBlock 1 0),
      (2, emptyBlock 2001 1), (3, emptyBlock 2000 1), (4, emptyBlock 3 1), (5, emptyBlock 2 1),
      (6, emptyBlock 4 5)]

/-- A fresh node once block 1 is committed. -/
def freshNodeAtOne : Node :=
  let fresh : Node := { chain := { hashes := [0] } }
  (fresh.resolveVirtual reorgNetwork { added := [1] } 0).getD fresh

/-- The fresh node once block 4 is committed too. -/
def freshNodeAtFour : Node :=
  (freshNodeAtOne.resolveVirtual reorgNetwork { added := [4] } 0).getD freshNodeAtOne

/-- A node right after its first committed block is in step with the empty stack. -/
theorem syncLog_freshNodeAtOne :
    SyncLog reorgNetwork 1 freshNodeAtOne.sync.ledger freshNodeAtOne [] := by
  have hsnapshots : freshNodeAtOne.sync.snapshots
      = empty.insert 1 freshNodeAtOne.sync.ledger.lightSnapshot := by decide +kernel
  refine ⟨⟨.refl _, ?_, ?_, ?_⟩, by decide +kernel, by decide +kernel, by decide +kernel⟩
  · intro k snap hsnap
    rw [hsnapshots, get?_insert] at hsnap
    split at hsnap
    · rw [take_nil, FoldRecord.replay_nil]
      exact (Option.some.inj hsnap).symm
    · cases hsnap
  · intro i snap hsnap
    rw [hsnapshots, get?_insert] at hsnap
    split at hsnap
    · next hi => exact hi.le
    · cases hsnap
  · intro k r u hr
    cases hr

/-- A fresh node that replaces block 4 by blocks 5 and 6 ends with the ledger of 1, 5 and 6 in
order: with nothing persisted below the frontier every fold is a normal one, and nothing the folds
read has changed. -/
theorem reorg_path_independence_fresh :
    ∃ node recs, resolveAll reorgNetwork (freshNodeAtOne, [])
        [({ added := [4] }, 0), ({ removed := [4], added := [5, 6] }, 0)] = some (node, recs) ∧
      node.chain.hashes.drop 2 = [5, 6] ∧
      SameBooks node.sync.ledger (FoldRecord.replay reorgNetwork freshNodeAtOne.sync.ledger
        (freshNodeAtOne.batchRecords reorgNetwork { added := [5, 6] } 0)) := by
  have hresolve : freshNodeAtOne.resolveVirtual reorgNetwork { added := [4] } 0
      = some freshNodeAtFour := by decide +kernel
  have hrun : CoveredRun reorgNetwork 1 freshNodeAtOne.sync.ledger (freshNodeAtOne, [])
      [({ added := [4] }, 0), ({ removed := [4], added := [5, 6] }, 0)] := by
    refine .cons ?_ ?_
    · exact ⟨by decide, by decide +kernel, Or.inl rfl, fun _ _ => Nat.zero_le _,
        fun j r _ hr => by cases hr⟩
    · intro node hnode
      obtain rfl : freshNodeAtFour = node := Option.mem_unique hresolve hnode
      refine .cons ⟨by decide +kernel, by decide +kernel, Or.inr (by decide +kernel),
        fun _ _ => Nat.zero_le _, ?_⟩ fun _ _ => .nil _
      intro j r _ hr hwarmup
      have hnormal : ∀ r ∈ nextRecords reorgNetwork freshNodeAtOne [] { added := [4] } 0,
          r.warmup = false := by decide +kernel
      rw [hnormal r (mem_of_getElem? hr)] at hwarmup
      cases hwarmup
  obtain ⟨node, recs, hall, hhashes, hdirect⟩ := reorg_path_independence syncLog_freshNodeAtOne
    (tidy_iff_entries.mpr (by decide +kernel)) hrun
  -- The stack holds the records of blocks 5 and 6 alone.
  have hstack : recs
      = freshNodeAtFour.batchRecords reorgNetwork { removed := [4], added := [5, 6] } 0 := by
    have hrecs := hall
    simp only [resolveAll, hresolve, Option.bind_some] at hrecs
    obtain ⟨node', -, hrecs⟩ := Option.bind_eq_some_iff.mp hrecs
    exact (Prod.mk.inj (Option.some.inj hrecs)).2.symm
  have hblocks : node.chain.hashes.drop 2 = [5, 6] := hhashes.trans (by rw [hstack]; rfl)
  refine ⟨node, recs, hall, hblocks, ?_⟩
  have hsame := hdirect 0
  rw [hblocks, hstack] at hsame
  have hreads : SameReads
      ⟨freshNodeAtFour.chain.applyChanges { removed := [4], added := [5, 6] }, 0,
        freshNodeAtFour.mirrors⟩
      ⟨freshNodeAtOne.chain.applyChanges { added := [5, 6] }, 0, freshNodeAtOne.mirrors⟩ :=
    ⟨by decide +kernel, rfl, by decide +kernel, by decide +kernel, by decide +kernel⟩
  have hcursor : freshNodeAtFour.sync.deepCursorDaa = freshNodeAtOne.sync.deepCursorDaa := by
    decide +kernel
  refine hsame (forall₂_map_left_iff.mpr (forall₂_map_right_iff.mpr (forall₂_same.mpr
    fun h _ => ⟨rfl, by rw [hcursor], hreads.burned, hreads.foldCall _ h⟩)))

/-- A node whose stores hold an imported row of score 5000 folds block 1 as warmup. -/
def importedNode : Node :=
  ({ chain := { hashes := [0] }, stores := { firstSeen := OrdMap.empty.insert 9 5000 } } :
    Node).reboot reorgNetwork 0

/-- The node once block 1 is committed. -/
def importedNodeAtOne : Node :=
  ((importedNode.resolveVirtual reorgNetwork { added := [1] } 0).getD importedNode)

/-- **A reorg that loses a claim**: block 2 is folded as warmup and its fold expires the claim
of block 1; the undo entry of a warmup block restores no expired claim, so after the reorg to
block 3, where the claim is still burnable, the vault of producer 7 is empty. Folding block 3
on the ledger of block 1 keeps the claim. -/
theorem reorg_path_dependence :
    (resolveAll reorgNetwork (importedNodeAtOne, [])
        [({ added := [2] }, 0), ({ removed := [2], added := [3] }, 0)]).map
      (fun s => (s.2.map FoldRecord.hash, claimsOf s.1.sync.ledger.vault 7,
        claimsOf (FoldRecord.replay reorgNetwork importedNodeAtOne.sync.ledger s.2).vault 7))
      = some ([3], [], [⟨⟨1000, 0⟩, 10, 1⟩]) := by
  decide +kernel

end KeryxNode
