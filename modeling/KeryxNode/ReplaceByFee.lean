import KeryxNode.AdmissionExact
import KeryxNode.MempoolGraph

/-!
# Replacement by Fee

A transaction that spends outpoints of pool transactions may replace them if it pays more. The
owners of the outpoints leave the pool with everything chained to them, and then room is made for
the newcomer. Eviction skips transactions the newcomer depends on; replacement does not look at
its parents. So the newcomer may enter the pool after a transaction that supplies one of its coins
was removed for its sake.

## Main results

* `replaceByFee_keeps_suppliers`: the suppliers stay exactly if none is chained to a replaced
  transaction.
* `replaceByFee_drops_supplier`: a newcomer that spends a descendant of what it replaces.
-/

namespace KeryxNode

open Tx List Relation

namespace Mempool

variable {F : Type} [LinearOrder F] {P : Params F} {m : MutableTransaction} {rbfPolicy : RbfPolicy}
  {mempool' mempool : Mempool F} {pool : TransactionsPool F} {virtualDaaScore : ℕ}
  {priority : Priority} {post : TransactionPostValidation} {transactionSize : ℕ} {ids : List Hash}
  {orphan : Orphan}

open KeryxNode.Action TransactionsPool

/-- A pool transaction is chained to another. -/
def TransactionsPool.Chained (pool : TransactionsPool F) : Hash → Hash → Prop :=
  ChainedTo pool.allTransactions pool.chainedTransactions

/-- A pool after a set of transactions was taken out of it, transactions and edges. -/
structure Without (S : Set Hash) (pool pool' : TransactionsPool F) : Prop where
  has : ∀ x, pool'.has x = true ↔ x ∉ S ∧ pool.has x = true
  chained : ∀ a b, pool'.Chained a b ↔ a ∉ S ∧ b ∉ S ∧ pool.Chained a b

namespace Without

variable {S T : Set Hash} {pool pool' pool'' : TransactionsPool F}

theorem refl : Without ∅ pool pool where
  has x := by simp
  chained a b := by simp

theorem trans (h : Without S pool pool') (h' : Without T pool' pool'') :
    Without (S ∪ T) pool pool'' where
  has x := by
    rw [h'.has, h.has, Set.mem_union]
    tauto
  chained a b := by
    rw [h'.chained, h.chained, Set.mem_union, Set.mem_union]
    tauto

theorem of_removed {id : Hash} (h : Removed P id pool pool') : Without {id} pool pool' := by
  have hhas : ∀ x, pool'.has x = true ↔ x ∉ ({id} : Set Hash) ∧ pool.has x = true := by
    intro x
    rw [has_eq_true, has_eq_true, h.get]
    by_cases hx : x = id <;> simp [hx]
  refine ⟨hhas, fun a b => ?_⟩
  change _ ∧ pool'.has b = true ↔ _ ∧ _ ∧ _ ∧ pool.has b = true
  rw [hhas, h.chained, Set.mem_singleton_iff]
  by_cases ha : a = id
  · simp [ha]
  · rw [if_neg ha, of_chainedWithout]
    by_cases hb : b = id
    · simp [hb]
    · split <;> simp [ha, hb]

end Without

/-! ### What leaves with a transaction -/

theorem without_of_forM {removeRedeemers : Bool}
    (h : ids.forM (removePoolTransaction P removeRedeemers) mempool = some (.ok (), mempool')) :
    Without {x | x ∈ ids} mempool.transactionPool mempool'.transactionPool := by
  induction ids generalizing mempool with
  | nil =>
    obtain rfl := forM_nil_eq_ok.mp h
    simpa using Without.refl
  | cons id ids ih =>
    obtain ⟨next, hid, hids⟩ := forM_cons_eq_ok.mp h
    have hset : {x | x ∈ id :: ids} = {id} ∪ {x | x ∈ ids} := by
      ext x
      simp
    rw [hset]
    obtain ⟨pool, orphans, hpool, ⟨-, rfl⟩ | ⟨tx, -, rfl⟩⟩ := of_removePoolTransaction hid <;>
      exact (Without.of_removed hpool).trans (ih hids)

theorem mem_cons_redeemerIds {id x : Hash} (hhas : pool.has id = true) :
    x ∈ id :: pool.redeemerIds P id ↔ ReflTransGen pool.Chained id x := by
  rw [mem_cons, TransactionsPool.redeemerIds, mem_redeemerIdsInPool P hhas,
    reflTransGen_iff_eq_or_transGen]
  rfl

/-- An id that is in the orphan pool is only removed there. -/
theorem pool_of_removeTransaction {id : Hash} {r : Except RuleError Unit}
    (horphan : mempool.orphanPool.has id = true)
    (h : removeTransaction P id true mempool = some (r, mempool')) :
    mempool'.transactionPool = mempool.transactionPool := by
  rw [removeTransaction, get_bind, if_pos horphan] at h
  have hkeeps : Keeps (OfPool fun p => p = mempool.transactionPool)
      (onOrphans (OrphanPool.removeOrphan P id true) : Op F _) := Keeps.zoom fun _ _ _ h _ => h
  exact Keeps.bind hkeeps (fun _ => Keeps.pure _) _ _ _ rfl h

/-- **What leaves the pool with a transaction**: all that is chained to it, or nothing if it is not
in the pool or if it is an orphan as well. -/
theorem Without.of_removeTransaction {id : Hash}
    (h : removeTransaction P id true mempool = some (.ok (), mempool')) :
    (mempool.orphanPool.has id = true ∨ mempool.transactionPool.has id = false) ∧
        mempool'.transactionPool = mempool.transactionPool ∨
      mempool.orphanPool.has id = false ∧ mempool.transactionPool.has id = true ∧
        Without {x | ReflTransGen mempool.transactionPool.Chained id x}
          mempool.transactionPool mempool'.transactionPool := by
  by_cases horphan : mempool.orphanPool.has id = true
  · exact .inl ⟨.inl horphan, pool_of_removeTransaction horphan h⟩
  · rw [removeTransaction, get_bind, if_neg horphan] at h
    split at h
    · next hhas =>
      refine .inr ⟨Bool.eq_false_iff.mpr horphan, hhas, ?_⟩
      simp only [← mem_cons_redeemerIds (P := P) hhas]
      exact without_of_forM h
    · next hhas =>
      obtain ⟨-, rfl⟩ := pure_eq_some.mp h
      exact .inl ⟨.inr (Bool.eq_false_iff.mpr hhas), rfl⟩

/-! ### Orphans do not appear -/

section Orphans

variable (x id : Hash)

omit [LinearOrder F] in
theorem keeps_not_orphan_removeSingleOrphan :
    Keeps (fun orphans : OrphanPool => orphans.has x = false)
      (OrphanPool.removeSingleOrphan P id) := by
  intro orphans r orphans' hx h
  rw [OrphanPool.removeSingleOrphan] at h
  split at h
  · cases h
    exact hx
  · next tx htx =>
    have hall : orphans'.allOrphans = orphans.allOrphans.erase id := by
      dsimp only at h
      split at h <;> cases h <;> rfl
    rw [OrphanPool.has, OrdMap.contains_eq_false] at hx ⊢
    rw [hall, OrdMap.get?_erase]
    split
    · rfl
    · exact hx

omit [LinearOrder F] in
theorem keeps_not_orphan_removeOrphan (removeRedeemers : Bool) :
    Keeps (fun orphans : OrphanPool => orphans.has x = false)
      (OrphanPool.removeOrphan P id removeRedeemers) :=
  Keeps.bind Keeps.get fun _ => Keeps.ite
    (fun _ => Keeps.mapM fun y _ => keeps_not_orphan_removeSingleOrphan x y) fun _ => Keeps.pure _

/-- A removal with all that depends on the removed transaction makes no orphans. -/
theorem keeps_not_orphan_removeTransaction :
    Keeps (fun mempool : Mempool F => mempool.orphanPool.has x = false)
      (removeTransaction P id true) := by
  have horphans : ∀ {α : Type} {y : Action OrphanPool RuleError α},
      Keeps (fun orphans : OrphanPool => orphans.has x = false) y →
      Keeps (fun mempool : Mempool F => mempool.orphanPool.has x = false) (onOrphans y) :=
    fun hy => Keeps.zoom fun mempool r u h hu => hy _ r u h hu
  have hone : ∀ y, Keeps (fun mempool : Mempool F => mempool.orphanPool.has x = false)
      (removePoolTransaction P true y) := by
    intro y
    refine Keeps.bind (Keeps.zoom fun _ _ _ h _ => h) fun tx =>
      Keeps.bind (Keeps.modify fun _ h => h) fun _ => Keeps.bind (horphans ?_) fun _ => Keeps.pure _
    exact Keeps.bind (Keeps.read _) fun redeemers =>
      Keeps.mapM fun z _ => keeps_not_orphan_removeSingleOrphan x z
  refine Keeps.bind Keeps.get fun mempool => Keeps.ite (fun _ => ?_) fun _ =>
    Keeps.ite (fun _ => Keeps.forM fun y _ => hone y) fun _ => Keeps.pure _
  exact Keeps.bind (horphans (keeps_not_orphan_removeOrphan x id true)) fun _ => Keeps.pure _

end Orphans

/-! ### What leaves for a newcomer -/

/-- A set that left the pool for the sake of some owners: it is closed, only has what is chained to
an owner, and has every owner that was in the pool and no orphan. -/
structure Replaced (start : Mempool F) (owners S : Set Hash) (pool : TransactionsPool F) :
    Prop where
  without : Without S start.transactionPool pool
  closed : ∀ a b, a ∈ S → start.transactionPool.Chained a b → b ∈ S
  reached : ∀ x ∈ S, ∃ d ∈ owners, start.transactionPool.has d = true ∧
    Relation.ReflTransGen start.transactionPool.Chained d x
  owner : ∀ d ∈ owners, start.orphanPool.has d = false → start.transactionPool.has d = true → d ∈ S

theorem Replaced.none (start : Mempool F) : Replaced start ∅ ∅ start.transactionPool :=
  ⟨Without.refl, nofun, nofun, nofun⟩

/-- **One more owner leaves.** -/
theorem Replaced.step {start : Mempool F} {owners S : Set Hash} {id : Hash}
    (hS : Replaced start owners S mempool.transactionPool)
    (horphans : ∀ x, start.orphanPool.has x = false → mempool.orphanPool.has x = false)
    (h : removeTransaction P id true mempool = some (.ok (), mempool')) :
    ∃ S', Replaced start (insert id owners) S' mempool'.transactionPool := by
  rcases Without.of_removeTransaction h with ⟨hskip, hpool⟩ | ⟨-, hhas, hwithout⟩
  · refine ⟨S, hpool ▸ hS.without, hS.closed, fun x hx =>
      (hS.reached x hx).imp fun _ hd => ⟨.inr hd.1, hd.2⟩, fun d hd hd₀ hhas => ?_⟩
    rcases hd with rfl | hd
    · by_contra hd
      rcases hskip with horphan | hmissing
      · rw [horphans d hd₀] at horphan
        cases horphan
      · rw [(hS.without.has d).mpr ⟨hd, hhas⟩] at hmissing
        cases hmissing
    · exact hS.owner d hd hd₀ hhas
  · have hmono : ∀ {x}, ReflTransGen mempool.transactionPool.Chained id x →
        ReflTransGen start.transactionPool.Chained id x :=
      fun {x} => ReflTransGen.mono
        (fun a b hab => ((hS.without.chained a b).mp hab).2.2) id x
    refine ⟨_, hS.without.trans hwithout, fun a b ha hab => ?_, fun x hx => ?_,
      fun d hd hd₀ hd₁ => ?_⟩
    · by_cases haS : a ∈ S
      · exact .inl (hS.closed a b haS hab)
      · by_cases hbS : b ∈ S
        · exact .inl hbS
        · exact .inr ((ha.resolve_left haS).tail
            ((hS.without.chained a b).mpr ⟨haS, hbS, hab⟩))
    · rcases hx with hx | hx
      · exact (hS.reached x hx).imp fun _ hd => ⟨.inr hd.1, hd.2⟩
      · exact ⟨id, Or.inl rfl, ((hS.without.has id).mp hhas).2, hmono hx⟩
    · rcases hd with rfl | hd
      · exact .inr ReflTransGen.refl
      · exact .inl (hS.owner d hd hd₀ hd₁)

omit [LinearOrder F] in
theorem union_mem_cons (owners : Set Hash) (id : Hash) (ids : List Hash) :
    owners ∪ {x | x ∈ id :: ids} = insert id owners ∪ {x | x ∈ ids} := by
  ext x
  simp only [Set.mem_union, Set.mem_ofPred_eq, mem_cons, Set.mem_insert_iff]
  tauto

/-- All owners leave, one after the other. -/
theorem Replaced.forM {start : Mempool F} {owners S : Set Hash}
    (hS : Replaced start owners S mempool.transactionPool)
    (horphans : ∀ x, start.orphanPool.has x = false → mempool.orphanPool.has x = false)
    (h : ids.forM (fun id => removeTransaction P id true) mempool = some (.ok (), mempool')) :
    ∃ S', Replaced start (owners ∪ {x | x ∈ ids}) S' mempool'.transactionPool := by
  induction ids generalizing mempool owners S with
  | nil =>
    obtain rfl := forM_nil_eq_ok.mp h
    simpa using ⟨S, hS⟩
  | cons id ids ih =>
    obtain ⟨next, hid, hids⟩ := forM_cons_eq_ok.mp h
    obtain ⟨S', hS'⟩ := hS.step horphans hid
    rw [union_mem_cons]
    exact ih hS' (fun x hx => keeps_not_orphan_removeTransaction x id mempool _ next
      (horphans x hx) hid) hids

/-- The pool transactions that own an outpoint a transaction spends. -/
def Conflicts (pool : TransactionsPool F) (m : MutableTransaction) : Set Hash :=
  {d | ∃ input ∈ m.tx.inputs, pool.getOutpointOwnerId input.previousOutpoint = some d}

theorem mem_doubleSpendTransactionIds {d : Hash} :
    d ∈ (pool.getDoubleSpendTransactionIds P m).map DoubleSpend.ownerId ↔
      d ∈ Conflicts pool m ∧ d ≠ P.idOf m := by
  have hfold : ∀ l : List DoubleSpend,
      d ∈ (l.foldl (fun found d => if d.ownerId ∈ found.map DoubleSpend.ownerId then found
        else found ++ [d]) []).map DoubleSpend.ownerId ↔ d ∈ l.map DoubleSpend.ownerId := by
    intro l
    induction l using reverseRecOn with
    | nil => rfl
    | append_singleton l e ih =>
      rw [foldl_append, foldl_cons, foldl_nil, map_append, mem_append, ← ih]
      split
      · next he => exact (or_iff_left_of_imp fun h => mem_singleton.mp h ▸ he).symm
      · rw [map_append, mem_append]
  rw [getDoubleSpendTransactionIds, hfold]
  simp only [mem_map, mem_filterMap, doubleSpendAt, Option.bind_eq_some_iff]
  constructor
  · rintro ⟨e, ⟨input, hinput, owner, howner, he⟩, rfl⟩
    split at he
    · next hne =>
      cases he
      exact ⟨⟨input, hinput, howner⟩, hne⟩
    · cases he
  · rintro ⟨⟨input, hinput, howner⟩, hne⟩
    exact ⟨⟨input.previousOutpoint, d⟩, ⟨input, hinput, d, howner, if_pos hne⟩, rfl⟩

/-- A replacement that succeeds removed the owners of all double spends. -/
theorem executeReplaceByFee_eq_ok {removed : Option Tx.Transaction}
    (h : executeReplaceByFee P m rbfPolicy mempool = some (.ok removed, mempool')) :
    ((mempool.transactionPool.getDoubleSpendTransactionIds P m).map DoubleSpend.ownerId).forM
      (fun id => removeTransaction P id true) mempool = some (.ok (), mempool') := by
  rw [executeReplaceByFee, get_bind] at h
  cases rbfPolicy with
  | forbidden =>
    obtain ⟨_, hcheck, hlast⟩ := ofExcept_bind_eq_ok.mp h
    obtain ⟨-, rfl⟩ := pure_eq_some.mp hlast
    rw [checkDoubleSpends] at hcheck
    split at hcheck
    · cases hcheck
    · next hnone =>
      rw [getFirstDoubleSpend, head?_eq_none_iff] at hnone
      rw [getDoubleSpendTransactionIds, hnone]
      rfl
  | allowed =>
    cases hlist : mempool.transactionPool.getDoubleSpendTransactionIds P m with
    | nil =>
      simp only [hlist] at h
      obtain ⟨-, rfl⟩ := pure_eq_some.mp h
      rfl
    | cons d rest =>
      simp only [hlist] at h
      obtain ⟨_, -, hrest⟩ := ofExcept_bind_eq_ok.mp h
      obtain ⟨_, checked, hvalid, hremoval⟩ := Action.bind_eq_ok.mp hrest
      obtain ⟨_, _, hremove, hlast⟩ := Action.bind_eq_ok.mp hremoval
      obtain ⟨-, rfl⟩ := pure_eq_some.mp hlast
      -- the validation of the other owners leaves the state as it is
      have hsame : Keeps (fun s => s = mempool) (rest.forM fun d => do
          let _ ← Action.ofExcept (mempool.validateDoubleSpendingTransaction P m d)
          return () : Op F Unit) :=
        Keeps.forM fun e _ => Keeps.bind (Keeps.ofExcept _) fun _ => Keeps.pure _
      obtain rfl := hsame mempool _ checked rfl hvalid
      rw [forM_map]
      exact hremove
  | mandatory =>
    cases hlist : mempool.transactionPool.getDoubleSpendTransactionIds P m with
    | nil =>
      simp only [hlist] at h
      cases h
    | cons d rest =>
      cases rest with
      | nil =>
        simp only [hlist] at h
        obtain ⟨_, -, hrest⟩ := ofExcept_bind_eq_ok.mp h
        obtain ⟨_, _, hremove, hlast⟩ := Action.bind_eq_ok.mp hrest
        obtain ⟨-, rfl⟩ := pure_eq_some.mp hlast
        exact forM_cons_eq_ok.mpr ⟨_, hremove, rfl⟩
      | cons e rest =>
        simp only [hlist] at h
        cases h

/-- **What leaves the pool for a newcomer.** -/
theorem replaced_of_executeReplaceByFee {removed : Option Tx.Transaction}
    (h : executeReplaceByFee P m rbfPolicy mempool = some (.ok removed, mempool')) :
    ∃ S, Replaced mempool {d | d ∈ Conflicts mempool.transactionPool m ∧ d ≠ P.idOf m} S
      mempool'.transactionPool := by
  obtain ⟨S, hS⟩ := (Replaced.none mempool).forM (fun _ hx => hx) (executeReplaceByFee_eq_ok h)
  have howners : ∅ ∪ {d | d ∈ (mempool.transactionPool.getDoubleSpendTransactionIds P m).map
      DoubleSpend.ownerId} = {d | d ∈ Conflicts mempool.transactionPool m ∧ d ≠ P.idOf m} := by
    rw [Set.empty_union]
    ext d
    exact mem_doubleSpendTransactionIds
  exact ⟨S, howners ▸ hS⟩

/-! ### Making room -/

/-- A selected transaction is in the pool, and neither it nor what is chained to it is a parent of
the newcomer. -/
def Spared (m : MutableTransaction) (pool : TransactionsPool F) (id : Hash) : Prop :=
  ∀ x ∈ m.spentIds, ¬ Relation.ReflTransGen pool.Chained id x

/-- The pool has a transaction with low priority, if at all. -/
def TransactionsPool.Low (pool : TransactionsPool F) (id : Hash) : Prop :=
  ∀ tx, pool.get id = some tx → tx.priority = .low

theorem of_selectForRemoval {feerateThreshold : F} {keys : List (FeerateKey F)}
    {chosen selected : List Hash} {size : ℕ}
    (hchosen : ∀ id ∈ chosen, Spared m pool id ∧ pool.Low id ∧ pool.has id = true)
    (h : pool.selectForRemoval P m transactionSize feerateThreshold keys chosen size
      = some (.ok selected)) :
    ∀ id ∈ selected, Spared m pool id ∧ pool.Low id ∧ pool.has id = true := by
  induction keys generalizing chosen size with
  | nil => cases h
  | cons key keys ih =>
    rw [selectForRemoval] at h
    simp only [bind_eq_some_iff] at h
    obtain ⟨tx, htx, h⟩ := h
    split at h
    · exact ih hchosen h
    next hlow =>
      split at h
      · exact ih hchosen h
      next hfree =>
        obtain ⟨rate, -, h⟩ := Option.bind_eq_some_iff.mp h
        split at h
        · cases h
        · obtain ⟨room, -, h⟩ := Option.bind_eq_some_iff.mp h
          have hhas : pool.has (keyId key) = true := has_eq_true.mpr ⟨tx, htx⟩
          have hnext : ∀ id ∈ chosen ++ [keyId key],
              Spared m pool id ∧ pool.Low id ∧ pool.has id = true := by
            intro id hid
            rcases mem_append.mp hid with hid | hid
            · exact hchosen id hid
            · obtain rfl := mem_singleton.mp hid
              refine ⟨fun x hx hreach => hfree (any_eq_true.mpr ⟨x, hx, decide_eq_true ?_⟩),
                fun tx' htx' => ?_, hhas⟩
              · rw [mem_append, mem_singleton, or_comm]
                exact (reflTransGen_iff_eq_or_transGen.mp hreach).imp_right
                  (mem_redeemerIdsInPool P hhas).mpr
              · obtain rfl := Option.mem_unique htx htx'
                cases hpriority : tx.priority with
                | low => rfl
                | high => exact absurd hpriority hlow
          split at h
          · cases h
            exact hnext
          · exact ih hnext h

/-- **What is selected**: transactions of the pool with low priority that the newcomer does not
depend on. -/
theorem of_limitTransactionCount {selected : List Hash}
    (h : pool.limitTransactionCount P m transactionSize = some (.ok selected)) :
    ∀ id ∈ selected, Spared m pool id ∧ pool.Low id ∧ pool.has id = true := by
  rw [limitTransactionCount] at h
  split at h
  · cases h
    simp
  · obtain ⟨threshold, -, h⟩ := Option.bind_eq_some_iff.mp h
    exact of_selectForRemoval (by simp) h

/-- Making room keeps the parents of the newcomer. -/
theorem has_of_makeRoom (hspared : ∀ id ∈ ids, Spared m mempool.transactionPool id)
    (h : makeRoom P transactionSize ids mempool = some (.ok (), mempool')) :
    ∀ x ∈ m.spentIds, mempool'.transactionPool.has x = mempool.transactionPool.has x := by
  induction ids generalizing mempool with
  | nil =>
    obtain ⟨-, rfl⟩ := pure_eq_some.mp h
    exact fun _ _ => rfl
  | cons id ids ih =>
    obtain ⟨_, next, hremove, hrest⟩ := Action.bind_eq_ok.mp h
    rw [get_bind] at hrest
    -- what leaves is chained to a spared transaction, and paths only get fewer
    have hstep : (∀ x ∈ m.spentIds,
        next.transactionPool.has x = mempool.transactionPool.has x) ∧
        ∀ a b, next.transactionPool.Chained a b → mempool.transactionPool.Chained a b := by
      rcases Without.of_removeTransaction hremove with ⟨-, hpool⟩ | ⟨-, -, hwithout⟩
      · rw [hpool]
        exact ⟨fun _ _ => rfl, fun _ _ hab => hab⟩
      · refine ⟨fun x hx => ?_, fun a b hab => ((hwithout.chained a b).mp hab).2.2⟩
        rw [Bool.eq_iff_iff, hwithout.has]
        exact and_iff_right (hspared id mem_cons_self x hx)
    split at hrest
    · obtain ⟨-, rfl⟩ := pure_eq_some.mp hrest
      exact hstep.1
    · intro x hx
      rw [ih (fun y hy z hz hreach => ?_) hrest x hx]
      · exact hstep.1 x hx
      · exact hspared y (mem_cons_of_mem _ hy) z hz
          (ReflTransGen.mono hstep.2 _ _ hreach)

/-- An insertion makes room and adds the newcomer. -/
theorem insertTransaction_eq_ok
    (h : insertTransaction P m virtualDaaScore priority mempool = some (.ok (), mempool')) :
    ∃ selected next,
      mempool.transactionPool.limitTransactionCount P m (P.mempoolEstimatedBytes m)
        = some (.ok selected) ∧
      makeRoom P (P.mempoolEstimatedBytes m) selected mempool = some (.ok (), next) ∧
      ∀ x ≠ P.idOf m, mempool'.transactionPool.get x = next.transactionPool.get x := by
  obtain ⟨_, hselected, hrest⟩ := unwrap_bind_eq_some.mp h
  obtain ⟨selected, rfl, hroom⟩ := ofExcept_bind_eq_ok.mp hrest
  obtain ⟨_, next, hmake, hadd⟩ := Action.bind_eq_ok.mp hroom
  rw [get_bind] at hadd
  split at hadd
  · obtain ⟨_, added, hmodify, hregister⟩ := Action.bind_eq_ok.mp hadd
    obtain ⟨pool, hpool, rfl⟩ := Option.map_eq_some_iff.mp (tryModify_eq_some.mp hmodify).2
    cases hregister
    obtain ⟨-, -, -, hget, -⟩ := addMempoolTransaction_eq_some hpool
    exact ⟨selected, next, hselected, hmake, fun x hne => (hget x).trans (if_neg hne)⟩
  · cases hadd

/-- **An insertion keeps the parents of the newcomer.** -/
theorem has_of_insertTransaction
    (h : insertTransaction P m virtualDaaScore priority mempool = some (.ok (), mempool'))
    {x : Hash} (hx : x ∈ m.spentIds) (hne : x ≠ P.idOf m) :
    mempool'.transactionPool.has x = mempool.transactionPool.has x := by
  obtain ⟨selected, next, hselected, hmake, hget⟩ := insertTransaction_eq_ok h
  rw [← has_of_makeRoom (fun id hid => (of_limitTransactionCount hselected id hid).1) hmake x hx]
  exact congrArg Option.isSome (hget x hne)

/-! ### A submission -/

/-- No pool transaction that supplies a coin of a newcomer is chained to one that owns an outpoint
the newcomer spends, or owns one itself. -/
def SuppliersIndependent (pool : TransactionsPool F) (m : MutableTransaction) : Prop :=
  ∀ d ∈ Conflicts pool m, pool.has d = true → ∀ p ∈ pool.parentIds m,
    ¬ Relation.ReflTransGen pool.Chained d p

/-- The same, read off the redeemers of the owners. -/
def checkSuppliersIndependent (P : Params F) (pool : TransactionsPool F) (m : MutableTransaction) :
    Bool :=
  (m.tx.inputs.filterMap fun input => pool.getOutpointOwnerId input.previousOutpoint).all fun d =>
    !pool.has d || (d :: pool.redeemerIds P d).all fun p => decide (p ∉ pool.parentIds m)

theorem suppliersIndependent_of_check (h : checkSuppliersIndependent P pool m = true) :
    SuppliersIndependent pool m := by
  rintro d ⟨input, hinput, howner⟩ hd p hp hreach
  have hd' := all_eq_true.mp h d (mem_filterMap.mpr ⟨input, hinput, howner⟩)
  rw [hd, Bool.not_true, Bool.false_or, all_eq_true] at hd'
  refine of_decide_eq_true (hd' p (mem_cons.mpr ?_)) hp
  exact (reflTransGen_iff_eq_or_transGen.mp hreach).imp_right
    (mem_redeemerIdsInPool P hd).mpr

/-- The pool transactions that supply a coin of a newcomer are still in the pool. -/
def SuppliersStay (pool pool' : TransactionsPool F) (m : MutableTransaction) : Prop :=
  ∀ p ∈ pool.parentIds m, pool'.has p = true

/-- An accepted transaction was inserted after the double spends had left. -/
theorem postValidate_accepted {validationResult : Except RuleError Unit}
    (h : postValidateAndInsertTransaction P validationResult m virtualDaaScore priority orphan
      rbfPolicy mempool = some (.ok post, mempool')) (haccepted : post.accepted ≠ none) :
    validationResult = .ok () ∧ mempool.transactionPool.has (P.idOf m) = false ∧
      ∃ removed replaced,
        executeReplaceByFee P m rbfPolicy mempool = some (.ok removed, replaced) ∧
        insertTransaction P m virtualDaaScore priority replaced = some (.ok (), mempool') := by
  rw [postValidateAndInsertTransaction, get_bind] at h
  split at h
  · cases h
  · next hnew =>
    obtain ⟨_, -, hrest⟩ := ofExcept_bind_eq_ok.mp h
    split at hrest
    · split at hrest
      · cases hrest
      · obtain ⟨_, _, -, hadd⟩ := Action.bind_eq_ok.mp hrest
        obtain ⟨_, _, -, hlast⟩ := Action.bind_eq_ok.mp hadd
        obtain ⟨hpost, -⟩ := pure_eq_some.mp hlast
        rw [Except.ok.inj hpost] at haccepted
        exact absurd rfl haccepted
    · cases hrest
    · obtain ⟨_, -, hreplace⟩ := ofExcept_bind_eq_ok.mp hrest
      obtain ⟨removed, replaced, hreplaced, hinsert⟩ := Action.bind_eq_ok.mp hreplace
      obtain ⟨_, inserted, hinserted, hlast⟩ := Action.bind_eq_ok.mp hinsert
      obtain ⟨-, rfl⟩ := pure_eq_some.mp hlast
      exact ⟨rfl, Bool.eq_false_iff.mpr hnew, removed, replaced, hreplaced, hinserted⟩

/-- The suppliers that leave are those among what was replaced. -/
theorem suppliersStay_iff {replaced : Mempool F} {owners S : Set Hash}
    (hnew : mempool.transactionPool.has (P.idOf m) = false)
    (hS : Replaced mempool owners S replaced.transactionPool)
    (hinsert : insertTransaction P m virtualDaaScore priority replaced = some (.ok (), mempool')) :
    SuppliersStay mempool.transactionPool mempool'.transactionPool m ↔
      ∀ p ∈ mempool.transactionPool.parentIds m, p ∉ S := by
  refine forall₂_congr fun p hp => ?_
  obtain ⟨hspent, hhas⟩ := mem_parentIds.mp hp
  have hne : p ≠ P.idOf m := by
    rintro rfl
    rw [hnew] at hhas
    cases hhas
  rw [has_of_insertTransaction hinsert hspent hne, hS.without.has]
  exact and_iff_left hhas

theorem suppliers_of_postValidate {validationResult : Except RuleError Unit}
    (h : postValidateAndInsertTransaction P validationResult m virtualDaaScore priority orphan
      rbfPolicy mempool = some (.ok post, mempool')) (haccepted : post.accepted ≠ none) :
    (SuppliersIndependent mempool.transactionPool m →
        SuppliersStay mempool.transactionPool mempool'.transactionPool m) ∧
      ((∀ d ∈ Conflicts mempool.transactionPool m, mempool.orphanPool.has d = false) →
        SuppliersStay mempool.transactionPool mempool'.transactionPool m →
        SuppliersIndependent mempool.transactionPool m) := by
  obtain ⟨-, hnew, removed, replaced, hreplace, hinsert⟩ := postValidate_accepted h haccepted
  obtain ⟨S, hS⟩ := replaced_of_executeReplaceByFee hreplace
  rw [suppliersStay_iff hnew hS hinsert]
  constructor
  · intro hindependent p hp hpS
    obtain ⟨d, ⟨hd, -⟩, hhas, hreach⟩ := hS.reached p hpS
    exact hindependent d hd hhas p hp hreach
  · intro horphans hstay d hd hhas p hp hreach
    have hne : d ≠ P.idOf m := by
      rintro rfl
      rw [hnew] at hhas
      cases hhas
    refine hstay p hp ?_
    clear hp
    induction hreach with
    | refl => exact hS.owner d ⟨hd, hne⟩ (horphans d hd) hhas
    | tail _ hstep ih => exact hS.closed _ _ ih hstep

/-- The consensus leaves the inputs of a transaction as they are. -/
theorem inputs_of_validateMempoolTransactionImpl {N : VirtualProcessor} {m' : MutableTransaction}
    {view : UtxoView} {daaScore pastMedianTime : ℕ} {args : TransactionValidationArgs}
    (h : N.validateMempoolTransactionImpl m view daaScore pastMedianTime args = .ok m') :
    m'.tx.inputs = m.tx.inputs := by
  obtain ⟨-, -, hcontext⟩ := VirtualProcessor.validateMempoolImpl_eq_ok h
  obtain ⟨entries, storageMass, threshold, fee, htx, -⟩ :=
    VirtualProcessor.validateMempool_eq_ok hcontext
  rw [htx]

/-- The checks of the mempool leave the inputs of a transaction as they are. -/
theorem inputs_of_preValidate {pre : TransactionPreValidation F}
    (h : mempool.preValidateAndPopulateTransaction P m rbfPolicy = some (.ok pre)) :
    pre.transaction.tx.inputs = m.tx.inputs := by
  rw [preValidateAndPopulateTransaction] at h
  split at h
  · cases h
  · obtain ⟨m', hm', h⟩ := Option.map_eq_some_iff.mp h
    cases h
    obtain rfl := populateMempoolEntries_eq_some hm'
    rfl

/-- A transaction that was accepted passed the consensus. -/
theorem validateAndInsert_accepted {N : VirtualProcessor} {view : UtxoView} {pastMedianTime : ℕ}
    {pre : TransactionPreValidation F}
    (h : validateAndInsert P N view virtualDaaScore pastMedianTime pre priority orphan rbfPolicy
      mempool = some (.ok post, mempool')) (haccepted : post.accepted ≠ none) :
    ∃ m, N.validateMempoolTransactionImpl pre.transaction view virtualDaaScore pastMedianTime
        (pre.args P) = .ok m ∧
      postValidateAndInsertTransaction P (.ok ()) m virtualDaaScore priority orphan rbfPolicy
        mempool = some (.ok post, mempool') := by
  rw [validateAndInsert] at h
  cases hvalid : N.validateMempoolTransactionImpl pre.transaction view virtualDaaScore
      pastMedianTime (pre.args P) with
  | ok m =>
    rw [hvalid] at h
    exact ⟨m, rfl, h⟩
  | error e =>
    rw [hvalid] at h
    cases e with
    | rejected e => cases (postValidate_accepted h haccepted).1
    | panicked => cases h

/-- **The suppliers of a newcomer stay** if none is chained to a transaction it replaces, and only
then, unless an owner of a spent outpoint is an orphan at the same time: such an owner only leaves
the orphan pool. -/
theorem replaceByFee_keeps_suppliers (P : Params F) (N : VirtualProcessor) (view : UtxoView)
    (virtualDaaScore pastMedianTime : ℕ) (m : MutableTransaction) (priority : Priority)
    (orphan : Orphan) (rbfPolicy : RbfPolicy) (mempool mempool' : Mempool F)
    (post : TransactionPostValidation)
    (h : validateAndInsertMutableTransaction P N view virtualDaaScore pastMedianTime m priority
      orphan rbfPolicy mempool = some (.ok post, mempool')) (haccepted : post.accepted ≠ none) :
    (SuppliersIndependent mempool.transactionPool m →
        SuppliersStay mempool.transactionPool mempool'.transactionPool m) ∧
      ((∀ d ∈ Conflicts mempool.transactionPool m, mempool.orphanPool.has d = false) →
        (SuppliersStay mempool.transactionPool mempool'.transactionPool m ↔
          SuppliersIndependent mempool.transactionPool m)) := by
  obtain ⟨checked, hchecked, hrest⟩ := unwrap_bind_eq_some.mp h
  obtain ⟨pre, rfl, hpost⟩ := ofExcept_bind_eq_ok.mp hrest
  obtain ⟨m', hvalid, hpost⟩ := validateAndInsert_accepted hpost haccepted
  have hinputs : m'.tx.inputs = m.tx.inputs :=
    (inputs_of_validateMempoolTransactionImpl hvalid).trans (inputs_of_preValidate hchecked)
  have hconflicts : Conflicts mempool.transactionPool m' = Conflicts mempool.transactionPool m := by
    rw [Conflicts, Conflicts, hinputs]
  have hparents : mempool.transactionPool.parentIds m' = mempool.transactionPool.parentIds m := by
    rw [parentIds, parentIds, getParentTransactionIdsInPool, getParentTransactionIdsInPool,
      MutableTransaction.spentIds, MutableTransaction.spentIds, hinputs]
  have hsuppliers := suppliers_of_postValidate hpost haccepted
  simp only [SuppliersIndependent, SuppliersStay, hconflicts, hparents] at hsuppliers
  exact ⟨hsuppliers.1, fun horphans => ⟨hsuppliers.2 horphans, hsuppliers.1⟩⟩

/-! ### A newcomer that spends a descendant of what it replaces -/

/-- A transaction that pays one output from the first outputs of some others. -/
def samplePayment (id value : ℕ) (spent : List Hash) : MutableTransaction :=
  .fromTx
    { inputs := spent.map fun parent =>
        { previousOutpoint := ⟨parent, 0⟩, sequence := u64Max }
      outputs := [{ value, scriptPublicKey := ⟨0, []⟩ }]
      lockTime := id }

/-- The submission of a transaction that may replace others. -/
def sampleSubmit (m : MutableTransaction) : Op ℕ TransactionPostValidation :=
  validateAndInsertMutableTransaction sampleParams VirtualProcessor.openProcessor
    VirtualProcessor.coinView 10 0 m .low .forbidden .allowed

/-- A payment, and one from the first output of another transaction. -/
def twoPayments (parent : Hash) : Op ℕ Unit := do
  let _ ← sampleSubmit (samplePayment 1 190000000 [9])
  let _ ← sampleSubmit (samplePayment 2 180000000 [parent])
  return ()

/-- A payment from the coin the first one spends and from the output of the second one. -/
def replacement : MutableTransaction :=
  samplePayment 3 300000000 [9, 2]

/-- The second payment spends the first: both leave, and the newcomer has lost its supplier. -/
theorem replaceByFee_drops_supplier :
    ∃ mempool mempool' post, twoPayments 1 {} = some (.ok (), mempool) ∧
      sampleSubmit replacement mempool = some (.ok post, mempool') ∧ post.accepted ≠ none ∧
      ¬ SuppliersStay mempool.transactionPool mempool'.transactionPool replacement := by
  have hrun : ∃ p ∈ (twoPayments 1).returns {}, ∃ q ∈ (sampleSubmit replacement).returns p.2,
      q.1.accepted ≠ none ∧ 2 ∈ p.2.transactionPool.parentIds replacement ∧
        q.2.transactionPool.has 2 = false := by decide +kernel
  obtain ⟨⟨_, mempool⟩, hchain, ⟨post, mempool'⟩, hsubmit, haccepted, hsupplier, hgone⟩ := hrun
  refine ⟨mempool, mempool', post, Action.returns_eq_some.mp hchain,
    Action.returns_eq_some.mp hsubmit, haccepted, fun hstay => ?_⟩
  rw [hstay 2 hsupplier] at hgone
  cases hgone

/-- The second payment spends another coin: only the first one leaves. -/
theorem replaceByFee_keeps_suppliers_apart :
    ∃ mempool mempool' post, twoPayments 8 {} = some (.ok (), mempool) ∧
      sampleSubmit replacement mempool = some (.ok post, mempool') ∧ post.accepted ≠ none ∧
      mempool'.transactionPool.has 1 = false ∧
      SuppliersStay mempool.transactionPool mempool'.transactionPool replacement := by
  have hrun : ∃ p ∈ (twoPayments 8).returns {}, ∃ q ∈ (sampleSubmit replacement).returns p.2,
      q.1.accepted ≠ none ∧
        checkSuppliersIndependent sampleParams p.2.transactionPool replacement = true ∧
        q.2.transactionPool.has 1 = false := by decide +kernel
  obtain ⟨⟨_, mempool⟩, hchain, ⟨post, mempool'⟩, hsubmit, haccepted, hindependent, hgone⟩ := hrun
  have hsubmit := Action.returns_eq_some.mp hsubmit
  exact ⟨mempool, mempool', post, Action.returns_eq_some.mp hchain, hsubmit, haccepted, hgone,
    (replaceByFee_keeps_suppliers _ _ _ _ _ _ _ _ _ _ _ _ hsubmit haccepted).1
      (suppliersIndependent_of_check hindependent)⟩

end Mempool

end KeryxNode
