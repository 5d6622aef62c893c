import KeryxNode.ReplaceByFee

/-!
# Transactions of High Priority

Eviction and expiry only select transactions of low priority, but each of them leaves with all that
is chained to it, whatever its priority. So the transactions of high priority stay exactly if none
of them is chained to one that an operation removes.

## Main results

* `high_priority_kept`: what each operation has to meet to keep the transactions of high priority,
  and that a pool without one chained to a transaction of low priority always meets it.
* `high_priority_expired`: a transaction of high priority expires with its parent.
-/

namespace KeryxNode

open Tx List Relation

namespace Mempool

variable {F : Type} [LinearOrder F] {P : Params F} {m : MutableTransaction} {id : Hash}
  {start pool pool' : TransactionsPool F} {mempool mempool' : Mempool F}

open KeryxNode.Action TransactionsPool

/-- All that leaves with a transaction has low priority. -/
def TransactionsPool.LeavesLow (pool : TransactionsPool F) (id : Hash) : Prop :=
  ∀ x, ReflTransGen pool.Chained id x → pool.Low x

/-- Everything chained to a transaction of low priority has low priority. -/
def TransactionsPool.Sheltered (pool : TransactionsPool F) : Prop :=
  ∀ id, pool.Low id → pool.LeavesLow id

/-- The transactions of high priority are still there. -/
def HighKept (start pool : TransactionsPool F) : Prop :=
  ∀ x tx, start.get x = some tx → tx.priority = .high → pool.get x = some tx

/-- A pool that some transactions of low priority have left. -/
structure Spares (start pool : TransactionsPool F) : Prop where
  get : ∀ x tx, pool.get x = some tx → start.get x = some tx
  high : HighKept start pool
  chained : ∀ a b, pool.Chained a b → start.Chained a b

/-- One transaction of low priority leaves. -/
theorem Spares.removed (h : Spares start pool) (hremoved : Removed P id pool pool')
    (hid : start.Low id) : Spares start pool' := by
  refine ⟨fun x tx hx => ?_, fun x tx hx hhigh => ?_, fun a b hab => ?_⟩
  · rw [hremoved.get] at hx
    split at hx
    · cases hx
    · exact h.get x tx hx
  · rw [hremoved.get, if_neg, h.high x tx hx hhigh]
    rintro rfl
    rw [hid tx hx] at hhigh
    cases hhigh
  · exact h.chained a b (((Without.of_removed hremoved).chained a b).mp hab).2.2

section Sheltered

variable (hsheltered : start.Sheltered)
include hsheltered

/-- **A transaction of low priority leaves** with all that is chained to it. -/
theorem keeps_spares_removeTransaction (hid : start.Low id) :
    Keeps (OfPool (Spares start)) (removeTransaction P id true) := by
  intro mempool r mempool' hstart h
  refine Keeps.ite (fun _ => ?_) (fun _ => ?_) mempool r mempool' hstart h
  · exact .bind (.zoom fun _ _ _ h _ => h) fun _ => .pure _
  · refine .ite (fun hhas => .forM fun x hx mempool r mempool' hspares hremove => ?_) fun _ =>
      .pure _
    have hreach := ReflTransGen.mono hstart.chained _ _ ((mem_cons_redeemerIds hhas).mp hx)
    obtain ⟨pool, orphans, hpool, ⟨-, rfl⟩ | ⟨tx, -, rfl⟩⟩ := of_removePoolTransaction hremove <;>
      exact hspares.removed hpool (hsheltered id hid x hreach)

theorem keeps_spares_makeRoom {transactionSize : ℕ} {ids : List Hash}
    (hids : ∀ id ∈ ids, start.Low id) :
    Keeps (OfPool (Spares start)) (makeRoom P transactionSize ids) := by
  induction ids with
  | nil => exact .pure _
  | cons id ids ih =>
    exact .bind (keeps_spares_removeTransaction hsheltered (hids id mem_cons_self)) fun _ =>
      .bind .get fun _ => .ite (fun _ => .pure _) fun _ =>
        ih fun id hid => hids id (mem_cons_of_mem _ hid)

omit hsheltered in
/-- A newcomer takes no place. -/
theorem admits_highKept : Admits P (OfPool (Spares start)) (OfPool (HighKept start)) m := by
  refine fun mempool hspares => ⟨hspares.high, fun pool _ _ _ hpool x tx hx hhigh => ?_⟩
  obtain ⟨-, -, hnone, hget, -⟩ := addMempoolTransaction_eq_some hpool
  have hold := hspares.high x tx hx hhigh
  change pool.get x = some tx
  rw [hget, if_neg, hold]
  rintro rfl
  rw [hnone] at hold
  cases hold

end Sheltered

/-- A scan for expired transactions finds those of the pool with low priority. -/
theorem of_collectExpired {daaScore now : ℕ}
    (hid : id ∈ (pool.collectExpiredLowPriorityTransactions P daaScore now).1) :
    pool.Low id ∧ pool.has id = true := by
  rw [collectExpiredLowPriorityTransactions] at hid
  split at hid
  · cases hid
  · obtain ⟨tx, htx⟩ := OrdMap.mem_keys_iff.mp ((P.walk_perm _).mem_iff.mp hid)
    obtain ⟨htx, hlow⟩ := OrdMap.of_get?_filter htx
    refine ⟨fun tx' htx' => ?_, has_eq_true.mpr ⟨tx, htx⟩⟩
    obtain rfl := Option.mem_unique htx htx'
    exact (of_decide_eq_true hlow).1

/-! ### What leaves -/

/-- The selected transactions that are removed before there is room. -/
def evicted (P : Params F) (transactionSize : ℕ) : List Hash → Mempool F → List Hash
  | [], _ => []
  | id :: ids, mempool =>
    match (removeTransaction P id true).returns mempool with
    | none => [id]
    | some (_, next) =>
      if next.transactionPool.hasRoom P transactionSize then [id]
      else id :: evicted P transactionSize ids next

theorem evicted_subset (transactionSize : ℕ) (ids : List Hash) (mempool : Mempool F) :
    evicted P transactionSize ids mempool ⊆ ids := by
  induction ids generalizing mempool with
  | nil => exact nil_subset _
  | cons id ids ih =>
    rw [evicted]
    split
    · exact cons_subset_cons id (nil_subset ids)
    · split
      · exact cons_subset_cons id (nil_subset ids)
      · exact cons_subset_cons id (ih _)

/-- What leaves the pool to make room. -/
theorem Replaced.makeRoom {start : Mempool F} {owners S : Set Hash} {transactionSize : ℕ}
    {ids : List Hash} (hS : Replaced start owners S mempool.transactionPool)
    (horphans : ∀ x, start.orphanPool.has x = false → mempool.orphanPool.has x = false)
    (h : Mempool.makeRoom P transactionSize ids mempool = some (.ok (), mempool')) :
    ∃ S', Replaced start (owners ∪ {x | x ∈ evicted P transactionSize ids mempool}) S'
      mempool'.transactionPool := by
  induction ids generalizing mempool owners S with
  | nil =>
    obtain ⟨-, rfl⟩ := pure_eq_some.mp h
    simpa [evicted] using ⟨S, hS⟩
  | cons id ids ih =>
    obtain ⟨_, next, hremove, hrest⟩ := Action.bind_eq_ok.mp h
    obtain ⟨S', hS'⟩ := hS.step horphans hremove
    rw [get_bind] at hrest
    simp only [evicted, Action.returns_eq_some.mpr hremove]
    split at hrest
    · next hroom =>
      obtain ⟨-, rfl⟩ := pure_eq_some.mp hrest
      rw [if_pos hroom, union_mem_cons]
      simpa using ⟨S', hS'⟩
    · next hroom =>
      rw [if_neg hroom, union_mem_cons]
      exact ih hS' (fun x hx => keeps_not_orphan_removeTransaction x id mempool _ next
        (horphans x hx) hremove) hrest

/-- **What leaves decides**: the transactions of high priority stay exactly if none is chained to
one of those that had to leave. -/
theorem Replaced.highKept_iff {start : Mempool F} {owners S : Set Hash}
    (hS : Replaced start owners S pool)
    (hget : ∀ x tx, pool.get x = some tx → start.transactionPool.get x = some tx)
    (howners : ∀ d ∈ owners,
      start.orphanPool.has d = false ∧ start.transactionPool.has d = true) :
    HighKept start.transactionPool pool ↔ ∀ d ∈ owners, start.transactionPool.LeavesLow d := by
  constructor
  · intro hkept d hd x hreach tx hx
    obtain ⟨horphan, hhas⟩ := howners d hd
    have hclosed : ∀ y, ReflTransGen start.transactionPool.Chained d y → y ∈ S := by
      intro y hy
      induction hy with
      | refl => exact hS.owner d hd horphan hhas
      | tail _ hab ih => exact hS.closed _ _ ih hab
    cases hpriority : tx.priority with
    | low => rfl
    | high =>
      have hthere := has_eq_true.mpr ⟨tx, hkept x tx hx hpriority⟩
      exact absurd (hclosed x hreach) ((hS.without.has x).mp hthere).1
  · intro hlow x tx hx hhigh
    have hstays : x ∉ S := by
      intro hleft
      obtain ⟨d, hd, -, hreach⟩ := hS.reached x hleft
      rw [hlow d hd x hreach tx hx] at hhigh
      cases hhigh
    obtain ⟨tx', hx'⟩ := has_eq_true.mp ((hS.without.has x).mpr ⟨hstays, has_eq_true.mpr ⟨tx, hx⟩⟩)
    obtain rfl := Option.mem_unique hx (hget x tx' hx')
    exact hx'

/-- A removal that fails does not stop an expiry; where none fails, all are removed. -/
theorem forM_attempt {ids : List Hash}
    (h : ids.forM (fun id => removeTransaction P id true) mempool = some (.ok (), mempool')) :
    ids.forM (fun id => do
      let _ ← Action.attempt (removeTransaction P id true)
      return () : Hash → Op F Unit) mempool = some (.ok (), mempool') := by
  induction ids generalizing mempool with
  | nil => exact h
  | cons id ids ih =>
    obtain ⟨next, hid, hids⟩ := forM_cons_eq_ok.mp h
    refine forM_cons_eq_ok.mpr ⟨next, ?_, ih hids⟩
    exact Action.bind_eq_ok.mpr ⟨_, next, by rw [Action.attempt, hid]; rfl, rfl⟩

/-- The transactions of a pool that some have left. -/
theorem lasting_get (start : TransactionsPool F) : Lasting P
    (OfPool fun pool => ∀ x tx, pool.get x = some tx → start.get x = some tx) :=
  stable_forall.lasting

/-- The transactions of high priority stay for a newcomer. -/
theorem highKept_insert_iff {virtualDaaScore : ℕ} {priority : Priority} {selected : List Hash}
    (hselected : mempool.transactionPool.limitTransactionCount P m (P.mempoolEstimatedBytes m)
      = some (.ok selected))
    (h : insertTransaction P m virtualDaaScore priority mempool = some (.ok (), mempool'))
    (hnew : mempool.transactionPool.has (P.idOf m) = false)
    (horphans : ∀ id ∈ selected, mempool.orphanPool.has id = false) :
    HighKept mempool.transactionPool mempool'.transactionPool ↔
      ∀ id ∈ evicted P (P.mempoolEstimatedBytes m) selected mempool,
        mempool.transactionPool.LeavesLow id := by
  obtain ⟨_, next, hselected', hmake, hadded⟩ := insertTransaction_eq_ok h
  obtain rfl := Except.ok.inj (Option.mem_unique hselected hselected')
  obtain ⟨S, hS⟩ := (Replaced.none mempool).makeRoom (fun _ hx => hx) hmake
  have hget := keeps_makeRoom (lasting_get mempool.transactionPool) _ _ mempool _ next
    (fun _ _ hx => hx) hmake
  rw [Set.empty_union] at hS
  have hiff := hS.highKept_iff hget fun id hid =>
    have hid := evicted_subset _ _ _ hid
    ⟨horphans id hid, (of_limitTransactionCount hselected id hid).2.2⟩
  refine Iff.trans (forall₄_congr fun x tx hx _ => ?_) hiff
  rw [hadded]
  rintro rfl
  rw [has_eq_false.mp hnew] at hx
  cases hx

/-- The transactions of high priority stay when others expire. -/
theorem highKept_expire_iff {virtualDaaScore now : ℕ} {expired : List Hash}
    {scanned : TransactionsPool F}
    (hcollect : mempool.transactionPool.collectExpiredLowPriorityTransactions P virtualDaaScore now
      = (expired, scanned))
    (h : expired.forM (fun id => removeTransaction P id true)
      { mempool with transactionPool := scanned } = some (.ok (), mempool'))
    (horphans : ∀ id ∈ expired, mempool.orphanPool.has id = false) :
    HighKept mempool.transactionPool mempool'.transactionPool ↔
      ∀ id ∈ expired, mempool.transactionPool.LeavesLow id := by
  have hin : ∀ id ∈ expired, mempool.transactionPool.has id = true := fun id hid =>
    (of_collectExpired (by rw [hcollect]; exact hid)).2
  -- A scan only notes when it was made.
  have hscanned : scanned.get = mempool.transactionPool.get ∧ scanned.has
      = mempool.transactionPool.has ∧ scanned.Chained = mempool.transactionPool.Chained := by
    obtain rfl := congrArg Prod.snd hcollect
    rw [collectExpiredLowPriorityTransactions]
    split <;> exact ⟨rfl, rfl, rfl⟩
  obtain ⟨hget, hhas, hchained⟩ := hscanned
  set start : Mempool F := { mempool with transactionPool := scanned } with hstart
  obtain ⟨S, hS⟩ := (Replaced.none start).forM (fun _ hx => hx) h
  have hkeeps : Keeps (OfPool fun pool => ∀ x tx, pool.get x = some tx → scanned.get x = some tx)
      (expired.forM fun id => removeTransaction P id true) :=
    .forM fun id _ => keeps_removeTransaction (lasting_get scanned) id true
  rw [Set.empty_union] at hS
  have hiff := hS.highKept_iff (hkeeps start _ mempool' (fun _ _ hx => hx) h) fun id hid =>
    ⟨horphans id hid, hhas ▸ hin id hid⟩
  simpa only [HighKept, LeavesLow, TransactionsPool.Low, hstart, hget, hchained,
    Set.mem_ofPred_eq] using hiff

/-- **High priority is kept.** An insertion keeps the transactions of high priority exactly if none
is chained to one of those evicted until there is room, and an expiry exactly if none is chained to
an expired one, where no removal fails and none of those to remove is an orphan as well. In a pool
where none is chained to a transaction of low priority both keep them, whatever fails. -/
theorem high_priority_kept (P : Params F) (mempool mempool' : Mempool F) :
    (∀ m virtualDaaScore priority selected,
      mempool.transactionPool.limitTransactionCount P m (P.mempoolEstimatedBytes m)
        = some (.ok selected) →
      insertTransaction P m virtualDaaScore priority mempool = some (.ok (), mempool') →
      mempool.transactionPool.has (P.idOf m) = false →
      (∀ id ∈ selected, mempool.orphanPool.has id = false) →
      (HighKept mempool.transactionPool mempool'.transactionPool ↔
        ∀ id ∈ evicted P (P.mempoolEstimatedBytes m) selected mempool,
          mempool.transactionPool.LeavesLow id)) ∧
    (∀ virtualDaaScore now expired scanned,
      mempool.transactionPool.collectExpiredLowPriorityTransactions P virtualDaaScore now
        = (expired, scanned) →
      expired.forM (fun id => removeTransaction P id true)
        { mempool with transactionPool := scanned } = some (.ok (), mempool') →
      (∀ id ∈ expired, mempool.orphanPool.has id = false) →
      expireLowPriorityTransactions P virtualDaaScore now mempool = some (.ok (), mempool') ∧
      (HighKept mempool.transactionPool mempool'.transactionPool ↔
        ∀ id ∈ expired, mempool.transactionPool.LeavesLow id)) ∧
    (mempool.transactionPool.Sheltered → ∀ r,
      (∀ m virtualDaaScore priority,
        insertTransaction P m virtualDaaScore priority mempool = some (r, mempool') →
          HighKept mempool.transactionPool mempool'.transactionPool) ∧
      ∀ virtualDaaScore now,
        expireLowPriorityTransactions P virtualDaaScore now mempool = some (r, mempool') →
          HighKept mempool.transactionPool mempool'.transactionPool) := by
  refine ⟨fun m daaScore priority selected hselected h hnew horphans => ?_,
    fun daaScore now expired scanned hcollect h horphans => ?_, fun hsheltered r =>
    ⟨fun m daaScore priority h => ?_, fun daaScore now h => ?_⟩⟩
  · exact highKept_insert_iff hselected h hnew horphans
  · refine ⟨?_, highKept_expire_iff hcollect h horphans⟩
    refine Action.bind_eq_ok.mpr ⟨expired, { mempool with transactionPool := scanned }, ?_,
      forM_attempt h⟩
    simp only [hcollect]
  · exact of_insertTransaction admits_highKept daaScore priority
      (fun selected hselected => keeps_spares_makeRoom hsheltered fun id hid =>
        (of_limitTransactionCount hselected id hid).2.1)
      ⟨fun _ _ h => h, fun _ _ h _ => h, fun _ _ h => h⟩ h
  · obtain ⟨e, hcollect, -⟩ | ⟨expired, scanned, hcollect, h⟩ := bind_eq_some.mp h
    · cases hcollect
    · obtain ⟨hexpired, rfl⟩ := Prod.mk.inj (Option.some.inj hcollect)
      obtain rfl := Except.ok.inj hexpired
      have hscan : OfPool (Spares mempool.transactionPool) { mempool with transactionPool :=
          (collectExpiredLowPriorityTransactions P mempool.transactionPool daaScore now).2 } := by
        rw [collectExpiredLowPriorityTransactions]
        split <;> exact ⟨fun _ _ h => h, fun _ _ h _ => h, fun _ _ h => h⟩
      refine (Keeps.forM (I := OfPool (Spares mempool.transactionPool))
        (fun id hid => .bind (.attempt ?_) fun _ => .pure _) _ r mempool' hscan h).high
      exact keeps_spares_removeTransaction hsheltered (of_collectExpired hid).1

/-- The insertion of a transaction of low priority. -/
def sampleInsertLow (m : MutableTransaction) (virtualDaaScore : ℕ) : Operation :=
  .insert (.ok ()) m virtualDaaScore .low .forbidden .forbidden

/-- Two transactions of low priority come in, one long before the other, and one of high priority
that spends the later. -/
def chainedToLater : List Operation :=
  [sampleInsertLow (sampleSpend 3 5 [8]) 0, sampleInsertLow (sampleSpend 1 5 [9]) 900,
    sampleInsert (sampleSpend 2 5 [1])]

/-- Only the earlier one expires. The one of high priority stays, although it is chained to a
transaction of low priority. -/
theorem high_priority_kept_later :
    ∃ mempool mempool', after sampleParams chainedToLater = some mempool ∧
      expireLowPriorityTransactions sampleParams 1000 60000 mempool = some (.ok (), mempool') ∧
      mempool.transactionPool.has 3 = true ∧ mempool'.transactionPool.has 3 = false ∧
      ¬ mempool.transactionPool.Sheltered ∧
      HighKept mempool.transactionPool mempool'.transactionPool := by
  have hrun : ∃ mempool ∈ after sampleParams chainedToLater, ∃ q ∈ ([3].forM fun id =>
        removeTransaction sampleParams id true).returns { mempool with transactionPool :=
          (mempool.transactionPool.collectExpiredLowPriorityTransactions sampleParams 1000
            60000).2 },
      (mempool.transactionPool.collectExpiredLowPriorityTransactions sampleParams 1000 60000).1
          = [3] ∧
        mempool.orphanPool.has 3 = false ∧
        mempool.transactionPool.redeemerIds sampleParams 3 = [] ∧
        2 ∈ mempool.transactionPool.redeemerIds sampleParams 1 ∧
        mempool.transactionPool.has 1 = true ∧ q.2.transactionPool.has 3 = false ∧
        (∃ tx ∈ mempool.transactionPool.get 1, tx.priority = .low) ∧
        ∃ tx ∈ mempool.transactionPool.get 2, tx.priority = .high := by decide +kernel
  obtain ⟨mempool, hstart, ⟨_, mempool'⟩, hremove, hexpired, horphan, halone, hredeems, hone,
    hgone, ⟨low, hlow, hpriority⟩, high, hhigh, hhighest⟩ := hrun
  have hcollect : mempool.transactionPool.collectExpiredLowPriorityTransactions sampleParams 1000
      60000 = ([3], _) := Prod.ext hexpired rfl
  have hthree : mempool.transactionPool.Low 3 ∧ mempool.transactionPool.has 3 = true :=
    of_collectExpired (by rw [hcollect]; exact mem_cons_self)
  obtain ⟨hexpire, hiff⟩ := (high_priority_kept sampleParams mempool mempool').2.1 1000 60000 [3] _
    hcollect (Action.returns_eq_some.mp hremove)
    (fun id hid => mem_singleton.mp hid ▸ horphan)
  refine ⟨mempool, mempool', hstart, hexpire, hthree.2, hgone, fun hsheltered => ?_,
    hiff.mpr fun id hid x hreach => ?_⟩
  · have hreach := (mem_cons_redeemerIds hone).mp (mem_cons_of_mem 1 hredeems)
    have hall : mempool.transactionPool.Low 1 := fun tx htx =>
      Option.mem_unique hlow htx ▸ hpriority
    rw [hsheltered 1 hall 2 hreach high hhigh] at hhighest
    cases hhighest
  · obtain rfl := mem_singleton.mp hid
    have hmem : x ∈ 3 :: mempool.transactionPool.redeemerIds sampleParams 3 :=
      (mem_cons_redeemerIds hthree.2).mpr hreach
    rw [halone] at hmem
    exact mem_singleton.mp hmem ▸ hthree.1

/-- A transaction of low priority comes in, then one of high priority that spends it. -/
def chainedHigh : List Operation :=
  [sampleInsertLow (sampleSpend 1 5 [9]) 0, sampleInsert (sampleSpend 2 5 [1])]

/-- When the first one expires, the second one leaves with it. -/
theorem high_priority_expired :
    ∃ mempool mempool', after sampleParams chainedHigh = some mempool ∧
      expireLowPriorityTransactions sampleParams 1000 60000 mempool = some (.ok (), mempool') ∧
      ¬ HighKept mempool.transactionPool mempool'.transactionPool := by
  have hrun : ∃ mempool ∈ after sampleParams chainedHigh,
      ∃ q ∈ (expireLowPriorityTransactions sampleParams 1000 60000).returns mempool,
        (∃ tx ∈ mempool.transactionPool.get 2, tx.priority = .high) ∧
          q.2.transactionPool.get 2 = none := by decide +kernel
  obtain ⟨mempool, hstart, ⟨_, mempool'⟩, hexpire, ⟨tx, htx, hhigh⟩, hgone⟩ := hrun
  refine ⟨mempool, mempool', hstart, Action.returns_eq_some.mp hexpire, fun hkept => ?_⟩
  rw [hkept 2 tx htx hhigh] at hgone
  cases hgone

end Mempool

end KeryxNode
