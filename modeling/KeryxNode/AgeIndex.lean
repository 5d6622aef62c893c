import Mathlib.Algebra.Group.Prod
import Mathlib.Algebra.Ring.Int.Defs
import KeryxNode.OrdMapScan
import KeryxNode.UtxoDiff

/-!
# The Coin-Age Index

Beside the virtual UTXO set a node keeps, for every address, the aggregates of its coins split
at the maturity boundary: a coin is mature at score `d` if its anchor is at most `d - W`. A
coin crosses the boundary by the passing of scores alone, so a queue lists coins by the score
they mature at, and every virtual commit sweeps it from the score of the last sweep (the
*watermark*) to the new one, promoting on a rise and demoting on a drop, before the diff of
the commit is folded in (`pipeline/virtual_processor/utxo_validation.rs`). Promoted entries
stay in the queue for `retention` scores, so that a drop can be unwound; a deeper drop makes
the sweep ask for a rebuild from the set.

Buckets are read through absent-as-zero, so the store is a function of the address. The sums
that saturate in the source saturate here; its `i128` sums are integers. `clamped` stands for
the warnings of the source: it is set where an update would fall below zero.

## Main results

* `sweep_detects_pruned`: in runs whose scores stay above the pruning horizon of the highest
  one, a drop that needs a pruned entry is answered by a rebuild.
-/

namespace KeryxNode

open OrdMap Option

variable {k : MaturationKey}

/-- The maturity and the retention of the index. -/
structure CoinAgeParams where
  coinAgeMaturityW : ℕ
  coinAgeRetention : ℕ

/-- The aggregates of an address: amounts of mature coins, amounts and anchor mass of immature
ones. -/
structure AgeBuckets where
  bMat : ℕ := 0
  bImm : ℕ := 0
  aImm : ℕ := 0
  deriving DecidableEq, Repr

/-! ### The maturation queue -/

/-- A queue key: the score of maturity, then the outpoint. -/
structure MaturationKey where
  maturityDaa : ℕ
  outpoint : TransactionOutpoint
  deriving DecidableEq, Repr

/-- The order of the queue keys. -/
def MaturationKey.key (k : MaturationKey) : ℕ ×ₗ TransactionOutpoint :=
  toLex (k.maturityDaa, k.outpoint)

theorem MaturationKey.key_injective : Function.Injective key := by
  rintro ⟨d, o⟩ ⟨d', o'⟩ h
  simpa [key] using h

instance : LinearOrder MaturationKey :=
  LinearOrder.lift' MaturationKey.key MaturationKey.key_injective

/-- Earlier keys mature no later. -/
theorem MaturationKey.maturityDaa_le {j : MaturationKey} (h : j < k) :
    j.maturityDaa ≤ k.maturityDaa := by
  have hlex : j.key < k.key := h
  rw [key, key, Prod.Lex.toLex_lt_toLex] at hlex
  rcases hlex with hlt | ⟨heq, -⟩
  · exact hlt.le
  · exact heq.le

/-- A queued coin. -/
structure MaturationEntry where
  scriptPublicKey : ScriptPublicKey
  amount : ℕ
  anchor : ℕ
  deriving DecidableEq, Repr

/-- Queued coins by maturity. -/
abbrev MaturationQueue := OrdMap MaturationKey MaturationEntry

/-- The queue entry of a coin. -/
def UtxoEntry.queued (e : UtxoEntry) : MaturationEntry :=
  ⟨e.scriptPublicKey, e.amount, e.effectiveDaa⟩

namespace MaturationQueue

variable (q : MaturationQueue)

/-- The entries that mature in `(fromExclusive, toInclusive]`. -/
def dueRange (q : MaturationQueue) (fromExclusive toInclusive : ℕ) :
    List (MaturationKey × MaturationEntry) :=
  if toInclusive ≤ fromExclusive then []
  else q.scan (fun k => decide (k.maturityDaa < fromExclusive + 1))
    fun k => decide (k.maturityDaa ≤ toInclusive)

/-- Deletes the entries that mature at or below `bound`. -/
def pruneBelow (q : MaturationQueue) (bound : ℕ) : MaturationQueue :=
  q.eraseAll ((dueRange q 0 bound).map Prod.fst)

/-- The range as a filter. -/
theorem dueRange_eq_filter (a b : ℕ) :
    dueRange q a b
      = q.entries.filter fun e => decide (a < e.1.maturityDaa ∧ e.1.maturityDaa ≤ b) := by
  rw [dueRange]
  split
  · next hle =>
    refine (List.filter_eq_nil_iff.mpr fun e _ he => ?_).symm
    have := of_decide_eq_true he
    omega
  · rw [scan_eq_filter]
    · refine List.filter_congr fun e _ => ?_
      rw [Bool.eq_iff_iff]
      simp only [Bool.and_eq_true, Bool.not_eq_true', decide_eq_false_iff_not, decide_eq_true_eq]
      omega
    · intro j k hjk hk
      have := MaturationKey.maturityDaa_le hjk
      have := of_decide_eq_true hk
      exact decide_eq_true (by omega)
    · intro j k hjk hk
      have := MaturationKey.maturityDaa_le hjk
      have := of_decide_eq_true hk
      exact decide_eq_true (by omega)

theorem mem_dueRange {q : MaturationQueue} {a b : ℕ} {e : MaturationKey × MaturationEntry} :
    e ∈ dueRange q a b ↔
      q.get? e.1 = some e.2 ∧ a < e.1.maturityDaa ∧ e.1.maturityDaa ≤ b := by
  rw [dueRange_eq_filter, get?_eq_some_iff]
  simp

theorem nodup_dueRange (a b : ℕ) : (dueRange q a b).Nodup := by
  rw [dueRange_eq_filter]
  exact q.nodup_keys.of_map.filter _

/-- Pruning keeps what matures later. -/
theorem get?_pruneBelow_of_lt {bound : ℕ} (h : bound < k.maturityDaa) :
    (pruneBelow q bound).get? k = q.get? k := by
  rw [pruneBelow, get?_eraseAll, if_neg]
  intro hmem
  obtain ⟨e, he, rfl⟩ := List.mem_map.mp hmem
  have := (mem_dueRange.mp he).2.2
  omega

end MaturationQueue

namespace CoinAgeParams

variable (P : CoinAgeParams) (q : MaturationQueue)

/-- The queue key of a coin. -/
def queueKey (o : TransactionOutpoint) (e : UtxoEntry) : MaturationKey :=
  ⟨e.effectiveDaa + P.coinAgeMaturityW, o⟩

/-- Enqueues the coins of a collection. -/
def enqueue (q : MaturationQueue) (coins : UtxoCollection) : MaturationQueue :=
  coins.entries.foldl (fun q c => q.insert (P.queueKey c.1 c.2) c.2.queued) q

/-- Deletes the coins of a collection from the queue. -/
def dequeue (q : MaturationQueue) (coins : UtxoCollection) : MaturationQueue :=
  q.eraseAll (coins.entries.map fun c => P.queueKey c.1 c.2)

/-- The greatest anchor that is mature at a score. -/
def matureBound (daaScore : ℕ) : ℕ :=
  daaScore - P.coinAgeMaturityW

/-- The queue at a coin's key after enqueueing a collection. -/
theorem get?_enqueue (coins : UtxoCollection) (k : MaturationKey) :
    (P.enqueue q coins).get? k
      = (((coins.get? k.outpoint).filter fun e => decide (P.queueKey k.outpoint e = k)).map
          UtxoEntry.queued).or (q.get? k) := by
  exact get?_foldl_insert_key P.queueKey (fun _ e => e.queued) k.outpoint
    (fun _ _ h => congrArg MaturationKey.outpoint h) coins.entries q coins.sorted

/-- A deleted coin has no entry. -/
theorem get?_dequeue_self {coins : UtxoCollection} {o : TransactionOutpoint} {e : UtxoEntry}
    (h : coins.get? o = some e) :
    (P.dequeue q coins).get? (P.queueKey o e) = none := by
  rw [dequeue, get?_eraseAll, if_pos]
  exact List.mem_map.mpr ⟨(o, e), get?_eq_some_iff.mp h, rfl⟩

/-- The entries of other outpoints stay. -/
theorem get?_dequeue_of_none {coins : UtxoCollection}
    (h : coins.get? k.outpoint = none) : (P.dequeue q coins).get? k = q.get? k := by
  rw [dequeue, get?_eraseAll, if_neg]
  intro hmem
  obtain ⟨c, hc, rfl⟩ := List.mem_map.mp hmem
  rw [queueKey, get?_eq_some_iff.mpr hc] at h
  cases h

end CoinAgeParams

/-! ### Buckets -/

/-- The largest `u128`. -/
def u128Max : ℕ := 2 ^ 128 - 1

/-- Signed changes of the three aggregates. -/
abbrev AgeDelta := ℤ × ℤ × ℤ

/-- What a coin contributes to the aggregates. -/
def UtxoEntry.ageDelta (matureBound : ℕ) (e : UtxoEntry) : AgeDelta :=
  if e.effectiveDaa ≤ matureBound then (e.amount, 0, 0)
  else (0, e.amount, e.amount * e.effectiveDaa)

/-- What the coins of an address in a collection contribute. -/
def UtxoCollection.ageMass (spk : ScriptPublicKey) (matureBound : ℕ) (coins : UtxoCollection) :
    AgeDelta :=
  coins.total fun _ e => if e.scriptPublicKey = spk then e.ageDelta matureBound else 0

/-- The change a diff makes to the aggregates of an address. -/
def ageDeltaForSpk (diff : UtxoDiff) (spk : ScriptPublicKey) (matureBound : ℕ) : AgeDelta :=
  UtxoCollection.ageMass spk matureBound diff.add
    - UtxoCollection.ageMass spk matureBound diff.remove

namespace AgeBuckets

/-- The cast to `i128`: the upper half of the range of `u128` turns negative. -/
def asI128 (n : ℕ) : ℤ :=
  Int.bmod n (2 ^ 128)

/-- The aggregates after a signed change, before they are clamped. A sum past `i128`, at which the
code panics, is kept as an integer. -/
def changed (b : AgeBuckets) (d : AgeDelta) : AgeDelta :=
  (asI128 b.bMat + d.1, asI128 b.bImm + d.2.1, asI128 b.aImm + d.2.2)

/-- Applies a signed change, clamped at zero and cast to the stored widths. -/
def change (b : AgeBuckets) (d : AgeDelta) : AgeBuckets :=
  ⟨(b.changed d).1.toNat % 2 ^ 64, (b.changed d).2.1.toNat % 2 ^ 64,
    (b.changed d).2.2.toNat % 2 ^ 128⟩

/-- Whether a signed change is clamped. -/
def underflows (b : AgeBuckets) (d : AgeDelta) : Bool :=
  decide ((b.changed d).1 < 0 ∨ (b.changed d).2.1 < 0 ∨ (b.changed d).2.2 < 0)

/-- Amount and anchor mass move to the immature side. -/
def demote (b : AgeBuckets) (m : ℕ × ℕ) : AgeBuckets :=
  ⟨b.bMat - m.1, min (b.bImm + m.1) u64Max, min (b.aImm + m.2) u128Max⟩

/-- Amount and anchor mass move to the mature side. -/
def promote (b : AgeBuckets) (m : ℕ × ℕ) : AgeBuckets :=
  ⟨min (b.bMat + m.1) u64Max, b.bImm - m.1, b.aImm - m.2⟩

/-- Adds a coin, as the rebuild does. -/
def addCoin (matureBound : ℕ) (b : AgeBuckets) (e : UtxoEntry) : AgeBuckets :=
  if e.effectiveDaa ≤ matureBound then { b with bMat := min (b.bMat + e.amount) u64Max }
  else
    { b with
      bImm := min (b.bImm + e.amount) u64Max
      aImm := min (b.aImm + e.amount * e.effectiveDaa) u128Max }

end AgeBuckets

/-- Amount and anchor mass of the queue entries of an address. -/
def foldDue (spk : ScriptPublicKey) (due : List (MaturationKey × MaturationEntry)) : ℕ × ℕ :=
  due.foldl (fun m d =>
    if d.2.scriptPublicKey = spk then
      (min (m.1 + d.2.amount) u64Max,
        min (m.2 + min (d.2.amount * d.2.anchor) u128Max) u128Max)
    else m) (0, 0)

/-! ### The index -/

/-- Buckets, queue and watermark, and whether an update was ever clamped. -/
structure AgeIndex where
  buckets : ScriptPublicKey → AgeBuckets := fun _ => {}
  queue : MaturationQueue := .empty
  watermark : Option ℕ := none
  clamped : Bool := false

namespace AgeIndex

variable (P : CoinAgeParams)

/-- Moves the split of the buckets to a new score. True asks for a rebuild: the drop exceeds
the retention. -/
def sweepMaturationQueue (ix : AgeIndex) (newDaaScore : ℕ) (diff : UtxoDiff) : AgeIndex × Bool :=
  let watermark := ix.watermark.getD newDaaScore
  if newDaaScore < watermark then
    if P.coinAgeRetention < watermark - newDaaScore then (ix, true)
    else
      -- A pure re-add is skipped: the diff adds the coin on the immature side.
      let due := (ix.queue.dueRange newDaaScore watermark).filter fun d =>
        !(diff.add.contains d.1.outpoint && !diff.remove.contains d.1.outpoint)
      ({ ix with
          buckets := fun spk => (ix.buckets spk).demote (foldDue spk due)
          watermark := some newDaaScore
          clamped := ix.clamped || due.any fun d =>
            decide ((ix.buckets d.2.scriptPublicKey).bMat < (foldDue d.2.scriptPublicKey due).1) },
        false)
  else
    let due := ix.queue.dueRange watermark newDaaScore
    ({ ix with
        buckets := fun spk => (ix.buckets spk).promote (foldDue spk due)
        queue := ix.queue.pruneBelow (newDaaScore - P.coinAgeRetention)
        watermark := some newDaaScore
        clamped := ix.clamped || due.any fun d =>
          decide ((ix.buckets d.2.scriptPublicKey).bImm < (foldDue d.2.scriptPublicKey due).1 ∨
            (ix.buckets d.2.scriptPublicKey).aImm < (foldDue d.2.scriptPublicKey due).2) },
      false)

/-- Folds a diff into the index: removals leave the queue before additions enter it. -/
def applyAgeDiff (ix : AgeIndex) (diff : UtxoDiff) (povDaaScore : ℕ) : AgeIndex :=
  let delta := fun spk => ageDeltaForSpk diff spk (P.matureBound povDaaScore)
  let touched := (diff.remove.entries ++ diff.add.entries).map fun c => c.2.scriptPublicKey
  { ix with
    buckets := fun spk =>
      if delta spk = 0 then ix.buckets spk else (ix.buckets spk).change (delta spk)
    queue := P.enqueue (P.dequeue ix.queue diff.remove) diff.add
    clamped := ix.clamped || touched.any fun spk => (ix.buckets spk).underflows (delta spk) }

/-- Derives the index from a set of coins at a score. Every immature coin is queued, and every
mature one within the retention. -/
def rebuildAgeBucketsIndex (ix : AgeIndex) (set : UtxoCollection) (daaScore : ℕ) : AgeIndex :=
  { ix with
    buckets := fun spk => (set.entries.filter fun c => decide (c.2.scriptPublicKey = spk)).foldl
      (fun b c => b.addCoin (P.matureBound daaScore) c.2) {}
    queue := P.enqueue .empty (set.filter fun _ e =>
      decide (P.matureBound daaScore < e.effectiveDaa) ||
        decide (daaScore - P.coinAgeRetention < e.effectiveDaa + P.coinAgeMaturityW))
    watermark := some daaScore }

end AgeIndex

/-- The virtual UTXO set with its index. -/
structure AgeNode where
  utxos : UtxoCollection
  index : AgeIndex

/-- A virtual commit: the new score and the diff to the new set. -/
structure VirtualCommit where
  daaScore : ℕ
  diff : UtxoDiff

namespace AgeNode

variable (P : CoinAgeParams)

/-- A node as the startup rebuild leaves it. -/
def rebuilt (set : UtxoCollection) (daaScore : ℕ) : AgeNode :=
  ⟨set, AgeIndex.rebuildAgeBucketsIndex P {} set daaScore⟩

/-- A virtual commit: the sweep, then the diff, then the rebuild if the sweep asked for it. -/
def commit (n : AgeNode) (c : VirtualCommit) : AgeNode :=
  let swept := n.index.sweepMaturationQueue P c.daaScore c.diff
  let applied := swept.1.applyAgeDiff P c.diff c.daaScore
  let utxos := c.diff.writeTo n.utxos
  ⟨utxos, if swept.2 then applied.rebuildAgeBucketsIndex P utxos c.daaScore else applied⟩

end AgeNode

/-! ### Which coins are queued -/

/-- Every coin of the set that matures past the horizon has its queue entry. -/
def Queued (P : CoinAgeParams) (horizon : ℕ) (set : UtxoCollection) (q : MaturationQueue) :
    Prop :=
  ∀ o e, set.get? o = some e → horizon < e.effectiveDaa + P.coinAgeMaturityW →
    q.get? (P.queueKey o e) = some e.queued

namespace Queued

variable {P : CoinAgeParams} {horizon : ℕ} {set : UtxoCollection} {ix : AgeIndex}

theorem mono {horizon' : ℕ} {q : MaturationQueue} (h : Queued P horizon set q)
    (hle : horizon ≤ horizon') : Queued P horizon' set q :=
  fun o e he hdue => h o e he (hle.trans_lt hdue)

/-- A sweep prunes below the horizon. -/
theorem sweep (h : Queued P horizon set ix.queue) {score : ℕ}
    (hscore : score - P.coinAgeRetention ≤ horizon) (diff : UtxoDiff) :
    Queued P horizon set (ix.sweepMaturationQueue P score diff).1.queue := by
  rw [AgeIndex.sweepMaturationQueue]
  split
  · split <;> exact h
  · intro o e he hdue
    have hkept : score - P.coinAgeRetention < (P.queueKey o e).maturityDaa :=
      hscore.trans_lt hdue
    rw [MaturationQueue.get?_pruneBelow_of_lt _ hkept]
    exact h o e he hdue

/-- Folding a diff in queues the coins it adds and keeps the others. -/
theorem applyAgeDiff (h : Queued P horizon set ix.queue) (diff : UtxoDiff) (score : ℕ) :
    Queued P horizon (diff.writeTo set) (ix.applyAgeDiff P diff score).queue := by
  intro o e he hdue
  rw [UtxoDiff.get?_writeTo, UtxoDiff.composed] at he
  rw [AgeIndex.applyAgeDiff]
  rw [P.get?_enqueue]
  cases hadd : diff.add.get? o with
  | some x =>
    obtain rfl : x = e := by simpa [hadd] using he
    simp [CoinAgeParams.queueKey, hadd]
  | none =>
    simp only [hadd] at he
    split at he
    · cases he
    · next hremove =>
      have hnone : diff.remove.get? (P.queueKey o e).outpoint = none :=
        contains_eq_false.mp (Bool.eq_false_iff.mpr hremove)
      rw [P.get?_dequeue_of_none _ hnone, h o e he hdue]
      simp [CoinAgeParams.queueKey, hadd]

end Queued

/-- A rebuild queues every coin that matures within the retention or later. -/
theorem queued_rebuild (P : CoinAgeParams) (ix : AgeIndex) (set : UtxoCollection) (score : ℕ) :
    Queued P (score - P.coinAgeRetention) set (ix.rebuildAgeBucketsIndex P set score).queue := by
  intro o e he hdue
  rw [AgeIndex.rebuildAgeBucketsIndex]
  rw [P.get?_enqueue, get?_filter]
  simp [CoinAgeParams.queueKey, he, hdue]

/-! ### Drops that cannot be unwound -/

namespace AgeNode

/-- The commit drops the score by more than the retention. -/
def DropsPastRetention (P : CoinAgeParams) (n : AgeNode) (c : VirtualCommit) : Prop :=
  c.daaScore + P.coinAgeRetention < n.index.watermark.getD c.daaScore

instance (P : CoinAgeParams) (n : AgeNode) (c : VirtualCommit) :
    Decidable (DropsPastRetention P n c) :=
  inferInstanceAs (Decidable (_ < _))

/-- The highest score since the last rebuild, after a commit. -/
def highestAfter (P : CoinAgeParams) (n : AgeNode) (highest : ℕ) (c : VirtualCommit) : ℕ :=
  if DropsPastRetention P n c then c.daaScore else max highest c.daaScore

/-- Every commit stays within the retention of the highest score since the last rebuild, or
drops by more than the retention at once. -/
def WithinHorizon (P : CoinAgeParams) : AgeNode → ℕ → List VirtualCommit → Prop
  | _, _, [] => True
  | n, highest, c :: cs =>
    (highest ≤ c.daaScore + P.coinAgeRetention ∨ DropsPastRetention P n c) ∧
      WithinHorizon P (n.commit P c) (highestAfter P n highest c) cs

variable {P : CoinAgeParams} {n : AgeNode} {c : VirtualCommit}

/-- The sweep asks for a rebuild exactly on a drop past the retention. -/
theorem sweep_asks_iff : (n.index.sweepMaturationQueue P c.daaScore c.diff).2 = true ↔
    DropsPastRetention P n c := by
  rw [AgeIndex.sweepMaturationQueue, DropsPastRetention]
  split
  · split
    · exact iff_of_true rfl (by omega)
    · exact iff_of_false (by simp) (by omega)
  · exact iff_of_false (by simp) (by omega)

/-- A commit keeps the queue complete above the retention of the highest score. -/
theorem queued_commit {highest : ℕ}
    (h : Queued P (highest - P.coinAgeRetention) n.utxos n.index.queue) (c : VirtualCommit) :
    Queued P (highestAfter P n highest c - P.coinAgeRetention) (n.commit P c).utxos
      (n.commit P c).index.queue := by
  rw [commit, highestAfter]
  by_cases hdrop : DropsPastRetention P n c
  · rw [if_pos hdrop, if_pos (sweep_asks_iff.mpr hdrop)]
    exact queued_rebuild P _ _ _
  · rw [if_neg hdrop, if_neg fun h => hdrop (sweep_asks_iff.mp h)]
    have hhigher := h.mono (Nat.sub_le_sub_right (le_max_left highest c.daaScore)
      P.coinAgeRetention)
    exact (hhigher.sweep (Nat.sub_le_sub_right (le_max_right _ _) _) c.diff).applyAgeDiff _ _

/-- A run keeps the queue complete, and its next commit meets the condition. -/
theorem queued_run (commits : List VirtualCommit) (c : VirtualCommit) :
    ∀ {n : AgeNode} {highest : ℕ},
      Queued P (highest - P.coinAgeRetention) n.utxos n.index.queue →
      WithinHorizon P n highest (commits ++ [c]) →
      ∃ highest', Queued P (highest' - P.coinAgeRetention)
          (commits.foldl (commit P) n).utxos (commits.foldl (commit P) n).index.queue ∧
        (highest' ≤ c.daaScore + P.coinAgeRetention ∨
          DropsPastRetention P (commits.foldl (commit P) n) c) := by
  induction commits with
  | nil => exact fun {n highest} h hrun => ⟨highest, h, hrun.1⟩
  | cons b commits ih => exact fun h hrun => ih (queued_commit h b) hrun.2

end AgeNode

open AgeNode in
/-- **Unwinds that cannot be performed are detected**: in a run that stays within the retention
of its highest score since the last rebuild, or drops past it at once, a drop across the
maturity of a coin without a queue entry asks for a rebuild. -/
theorem sweep_detects_pruned (P : CoinAgeParams) (set : UtxoCollection) (start : ℕ)
    (commits : List VirtualCommit) (c : VirtualCommit)
    (hrun : WithinHorizon P (.rebuilt P set start) start (commits ++ [c])) :
    let n := commits.foldl (AgeNode.commit P) (.rebuilt P set start)
    ∀ watermark, n.index.watermark = some watermark → c.daaScore < watermark →
      ∀ o e, n.utxos.get? o = some e → e.effectiveDaa ≤ P.matureBound watermark →
        P.matureBound c.daaScore < e.effectiveDaa → n.index.queue.get? (P.queueKey o e) = none →
        (n.index.sweepMaturationQueue P c.daaScore c.diff).2 = true := by
  intro n watermark hwm hdrop o e he _ himm hgone
  obtain ⟨highest, hqueued, hcond⟩ := queued_run commits c
    (n := .rebuilt P set start) (queued_rebuild P _ set start) hrun
  rcases hcond with hhorizon | hpast
  · -- The coin matures above the new score, hence above the pruning horizon.
    have hdue : highest - P.coinAgeRetention < e.effectiveDaa + P.coinAgeMaturityW := by
      rw [CoinAgeParams.matureBound] at himm
      omega
    have hentry := hqueued o e he hdue
    rw [hgone] at hentry
    cases hentry
  · exact sweep_asks_iff.mpr hpast

/-- After a rise by 8 the entry of a coin is pruned; the drop by 10 then asks for a rebuild. -/
theorem sweep_detects_pruned_atOnce :
    let P : CoinAgeParams := ⟨10, 5⟩
    let n := [⟨20, {}⟩].foldl (AgeNode.commit P) (.rebuilt P (sampleCoin 5 1) 12)
    n.index.queue.get? ⟨11, ⟨1, 0⟩⟩ = none ∧
      (n.index.sweepMaturationQueue P 10 {}).2 = true := by
  intro P n
  refine ⟨by decide, ?_⟩
  exact sweep_detects_pruned P (sampleCoin 5 1) 12 [⟨20, {}⟩] ⟨10, {}⟩
    ⟨.inl (by decide), Or.inr (by decide), trivial⟩ 20 rfl (by decide) ⟨1, 0⟩
    ⟨5, ⟨0, []⟩, 10, false, 1⟩ (by decide) (by decide) (by decide) (by decide)

/-- A rise by 5 prunes the entry of a coin, a drop by 5 leads back to where it was pruned, and
the next drop by 2 crosses the coin's maturity without asking for a rebuild. -/
theorem sweep_misses_pruned :
    let P : CoinAgeParams := ⟨10, 5⟩
    let n := [⟨17, {}⟩, ⟨12, {}⟩].foldl (AgeNode.commit P) (.rebuilt P (sampleCoin 5 1) 12)
    n.index.watermark = some 12 ∧
      n.utxos.get? ⟨1, 0⟩ = some ⟨5, ⟨0, []⟩, 10, false, 1⟩ ∧
      1 ≤ P.matureBound 12 ∧ P.matureBound 10 < 1 ∧
      n.index.queue.get? (P.queueKey ⟨1, 0⟩ ⟨5, ⟨0, []⟩, 10, false, 1⟩) = none ∧
      (n.index.sweepMaturationQueue P 10 {}).2 = false := by
  refine ⟨rfl, by decide, by decide, by decide, by decide, by decide⟩

end KeryxNode
