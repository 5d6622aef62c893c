import KeryxNode.Mempool
import KeryxNode.PartialRun
import Mathlib.Data.List.ReduceOption

/-!
# The Dependency Graph of the Mempool

The pool records for every transaction the pool transactions it spends from, the inverse of that
relation, and the frontier of transactions that spend from none. Adding a transaction looks for its
parents and never for transactions of the pool that spend it; removing one takes it out of both
relations. So the graph is exact as long as no transaction enters the pool under one that spends it
already, and wrong for the pair from then on.

## Main results

* `mempool_graph_exact`: the graph is exact along every run that inserts no transaction under one
  that spends it.
* `mempool_graph_misses_returning_parent`: a parent that leaves alone and comes back.
-/

namespace KeryxNode

open Tx OrdMap List Option

namespace Mempool

variable {F : Type} {P : Params F} {m : MutableTransaction} {tx : MempoolTransaction} {size : ℕ}
  {r : Except RuleError Unit} {op : Operation}

/-! ### Edges -/

namespace TransactionsEdges

variable (edges : TransactionsEdges) (ids : Finset Hash) (id x : Hash)

theorem of_insert (k x : Hash) (s : Finset Hash) :
    TransactionsEdges.of (edges.insert k s) x = if x = k then s else edges.of x := by
  rw [TransactionsEdges.of, get?_insert]
  split <;> rfl

theorem of_erase (k x : Hash) :
    TransactionsEdges.of (edges.erase k) x = if x = k then ∅ else edges.of x := by
  rw [TransactionsEdges.of, get?_erase]
  split <;> rfl

theorem of_insertInto :
    (edges.insertInto ids id).of x = if x ∈ ids then insert id (edges.of x) else edges.of x := by
  have hfold : ∀ (l : List Hash) (edges : TransactionsEdges), l.Nodup →
      TransactionsEdges.of (l.foldl
          (fun m k => m.insert k (insert id (TransactionsEdges.of m k))) edges) x
        = if x ∈ l then insert id (edges.of x) else edges.of x := by
    intro l
    induction l with
    | nil => intro edges _; simp
    | cons k l ih =>
      intro edges hnodup
      obtain ⟨hk, hl⟩ := nodup_cons.mp hnodup
      rw [foldl_cons, ih _ hl, of_insert]
      by_cases hx : x = k
      · subst hx
        simp [hk]
      · simp [hx]
  rw [insertInto, hfold _ edges (Finset.sort_nodup _ _)]
  simp only [Finset.mem_sort]

theorem get?_eraseFrom :
    (edges.eraseFrom ids id).get? x
      = (edges.get? x).map fun s => if x ∈ ids then s.erase id else s := by
  rw [eraseFrom, get?_map]

theorem of_eraseFrom :
    (edges.eraseFrom ids id).of x = if x ∈ ids then (edges.of x).erase id else edges.of x := by
  rw [TransactionsEdges.of, get?_eraseFrom, TransactionsEdges.of]
  cases edges.get? x with
  | none => simp
  | some s => rfl

end TransactionsEdges

/-- The transaction of a frontier key. -/
def keyId (key : FeerateKey F) : Hash :=
  (ofLex (ofLex key).2).2

theorem keyId_of_feerateKey {key : FeerateKey F} (h : P.feerateKey m = some key) :
    keyId key = P.idOf m := by
  simp only [Params.feerateKey, bind_eq_some_iff] at h
  obtain ⟨mass, -, fee, -, h⟩ := h
  cases h
  rfl

variable [LinearOrder F]

/-! ### The exact graph -/

/-- Every transaction of the pool is found under its id. -/
def Keyed (P : Params F) (pool : TransactionsPool F) : Prop :=
  ∀ id tx, pool.get id = some tx → P.idOf tx.mtx = id

/-- A transaction that is put into the pool is found under its id. -/
theorem Keyed.insert {pool pool' : TransactionsPool F} {t : MempoolTransaction}
    (hkeyed : Keyed P pool)
    (hget : ∀ id, pool'.get id = if id = P.idOf t.mtx then some t else pool.get id) :
    Keyed P pool' := by
  intro id other hid
  rw [hget] at hid
  split at hid
  · next heq => rw [heq, ← some.inj hid]
  · exact hkeyed id other hid

/-- The graph is as the transactions determine it. -/
structure Linked (P : Params F) (pool : TransactionsPool F) : Prop where
  keyed : Keyed P pool
  rated : ∀ id tx, pool.get id = some tx → ∃ key, P.feerateKey tx.mtx = some key
  parents : ∀ id, pool.parentTransactions.get? id
    = (pool.get id).map fun tx => pool.parentIds tx.mtx
  chained : ∀ parent child, child ∈ pool.chainedTransactions.of parent ↔
    parent ∈ pool.parentTransactions.of child
  ready : ∀ key, key ∈ pool.readyTransactions.keys ↔
    ∃ tx, pool.get (keyId key) = some tx ∧ P.feerateKey tx.mtx = some key ∧
      pool.parentIds tx.mtx = ∅

namespace TransactionsPool

variable {pool pool' : TransactionsPool F} {id : Hash}

theorem has_eq_true : pool.has id = true ↔ ∃ tx, pool.get id = some tx :=
  isSome_iff_exists

theorem has_eq_false : pool.has id = false ↔ pool.get id = none :=
  contains_eq_false

theorem mem_parentIds {m : MutableTransaction} :
    id ∈ pool.parentIds m ↔ id ∈ m.spentIds ∧ pool.has id = true := by
  rw [parentIds, getParentTransactionIdsInPool, List.mem_toFinset, mem_filter]
  rfl

/-- **What an addition leaves.** -/
theorem addMempoolTransaction_eq_some (h : pool.addMempoolTransaction P tx size = some pool') :
    ∃ key, P.feerateKey tx.mtx = some key ∧ pool.get (P.idOf tx.mtx) = none ∧
      (∀ id, pool'.get id = if id = P.idOf tx.mtx then some tx else pool.get id) ∧
      (∀ id, pool'.parentTransactions.get? id = if id = P.idOf tx.mtx then
        some (pool.parentIds tx.mtx) else pool.parentTransactions.get? id) ∧
      (∀ id, pool'.chainedTransactions.of id = if id ∈ pool.parentIds tx.mtx then
        insert (P.idOf tx.mtx) (pool.chainedTransactions.of id)
        else pool.chainedTransactions.of id) ∧
      ∀ k, k ∈ pool'.readyTransactions.keys ↔
        k = key ∧ pool.parentIds tx.mtx = ∅ ∨ k ∈ pool.readyTransactions.keys := by
  simp only [addMempoolTransaction] at h
  split at h
  · cases h
  · next hguard =>
    simp only [Bool.or_eq_true, Bool.not_eq_eq_eq_not, Bool.not_true, not_or,
      Bool.not_eq_true, Bool.not_eq_false] at hguard
    obtain ⟨hnew, hpop⟩ := hguard
    obtain ⟨ready, hready, rfl⟩ := map_eq_some_iff.mp h
    rw [readyWith] at hready
    simp only [MutableTransaction.isFullyPopulated, Bool.and_eq_true] at hpop
    obtain ⟨⟨-, hfee⟩, hmass⟩ := hpop
    obtain ⟨fee, hfee⟩ := isSome_iff_exists.mp hfee
    obtain ⟨masses, hmass⟩ := isSome_iff_exists.mp hmass
    obtain ⟨key, hkey⟩ : ∃ key, P.feerateKey tx.mtx = some key := by
      rw [Params.feerateKey, MutableTransaction.calculatedMass, hmass, hfee]
      exact ⟨_, rfl⟩
    refine ⟨key, hkey, has_eq_false.mp hnew, fun id => get?_insert .., fun id =>
      get?_insert .., fun id => TransactionsEdges.of_insertInto .., fun k => ?_⟩
    by_cases hempty : pool.parentIds tx.mtx = ∅
    · rw [if_pos hempty, hkey] at hready
      cases hready
      rw [mem_keys_insert]
      simp only [hempty, and_true]
    · rw [if_neg hempty] at hready
      cases hready
      simp only [hempty, and_false, false_or]

theorem of_chainedWithout (id x : Hash) :
    (pool.chainedWithout id).of x = if x ∈ pool.parentTransactions.of id then
      (pool.chainedTransactions.of x).erase id else pool.chainedTransactions.of x :=
  TransactionsEdges.of_eraseFrom ..

/-- The keys of some transactions are the keys of each of them. -/
theorem mem_of_keysOf {ids : Finset Hash} {keys : List (FeerateKey F)} {key : FeerateKey F}
    (h : pool.keysOf P ids = some keys) :
    key ∈ keys ↔ ∃ id ∈ ids, ∃ tx, pool.get id = some tx ∧ P.feerateKey tx.mtx = some key := by
  rw [mem_of_mapM_eq_some h]
  simp only [Finset.mem_sort, Option.bind_eq_some_iff]

/-- What the removal of a transaction leaves, also if the transaction is missing. -/
structure Removed (P : Params F) (id : Hash) (pool pool' : TransactionsPool F) : Prop where
  get : ∀ x, pool'.get x = if x = id then none else pool.get x
  chained : ∀ x, pool'.chainedTransactions.of x
    = if x = id then ∅ else (pool.chainedWithout id).of x
  parents : ∀ x, pool'.parentTransactions.get? x
    = if x = id then none else (pool.parentsWithout id).get? x
  ready : ∀ key, key ∈ pool'.readyTransactions.keys ↔
    (∀ tx, pool.get id = some tx → P.feerateKey tx.mtx ≠ some key) ∧
      ((∃ x ∈ pool.freedBy id, ∃ tx, pool.get x = some tx ∧ P.feerateKey tx.mtx = some key) ∨
        key ∈ pool.readyTransactions.keys)

/-- **What a removal leaves.** -/
theorem removed_of_removeTransaction {r : Except RuleError MempoolTransaction}
    (h : removeTransaction P id pool = some (r, pool')) :
    Removed P id pool pool' := by
  obtain ⟨unlinked, hunlink, h⟩ := bind_eq_some_iff.mp h
  obtain ⟨keys, hkeys, rfl⟩ := map_eq_some_iff.mp hunlink
  cases hget : pool.get id with
  | none =>
    rw [hget] at h
    obtain rfl := congrArg Prod.snd (some.inj h)
    refine ⟨fun x => ?_, fun x => TransactionsEdges.of_erase .., fun x => get?_erase ..,
      fun key => ?_⟩
    · split
      · next hx => exact hx ▸ hget
      · rfl
    · rw [mem_keys_foldl_insert, mem_of_keysOf hkeys, hget]
      exact ⟨fun hkey => ⟨nofun, hkey⟩, fun hkey => hkey.2⟩
  | some removedTx =>
    rw [hget] at h
    obtain ⟨removed, htake, h⟩ := map_eq_some_iff.mp h
    obtain rfl := congrArg Prod.snd h
    simp only [takeOut, bind_eq_some_iff] at htake
    obtain ⟨key, hkey, size, -, htake⟩ := htake
    split at htake
    · cases htake
    · cases htake
      refine ⟨fun x => get?_erase .., fun x => TransactionsEdges.of_erase ..,
        fun x => get?_erase .., fun k => ?_⟩
      rw [mem_keys_erase, mem_keys_foldl_insert, mem_of_keysOf hkeys, hget]
      refine and_congr_left fun _ => ⟨fun hne tx htx => ?_, fun hne heq => ?_⟩
      · cases htx
        rw [hkey]
        exact fun heq => hne (some.inj heq).symm
      · exact hne removedTx rfl (heq ▸ hkey)

/-- A removal returns the transaction of the pool, or an error if there is none. -/
theorem get_of_removeTransaction {r : Except RuleError MempoolTransaction}
    (h : removeTransaction P id pool = some (r, pool')) : pool.get id = r.toOption := by
  obtain ⟨unlinked, -, h⟩ := bind_eq_some_iff.mp h
  cases hget : pool.get id with
  | none =>
    rw [hget] at h
    cases h
    rfl
  | some removedTx =>
    rw [hget] at h
    obtain ⟨removed, -, h⟩ := map_eq_some_iff.mp h
    cases h
    rfl

/-- A pool with a transaction in place of the one with the same id. -/
def put (pool : TransactionsPool F) (id : Hash) (tx : MempoolTransaction) (size : ℕ) :
    TransactionsPool F :=
  { pool with allTransactions := pool.allTransactions.insert id tx, estimatedSize := size }

theorem get_put (x : Hash) :
    (pool.put id tx size).get x = if x = id then some tx else pool.get x :=
  get?_insert ..

theorem parentIds_congr {m : MutableTransaction} (h : ∀ x ∈ m.spentIds, pool'.has x = pool.has x) :
    pool'.parentIds m = pool.parentIds m := by
  ext x
  rw [mem_parentIds, mem_parentIds]
  exact and_congr_right fun hx => by rw [h x hx]

end TransactionsPool

/-! ### The operations of the pool -/

namespace Linked

open TransactionsPool

variable {pool pool' : TransactionsPool F}

section

variable (hL : Linked P pool)
include hL

theorem of_parents (id : Hash) :
    pool.parentTransactions.of id
      = ((pool.get id).map fun tx => pool.parentIds tx.mtx).getD ∅ := by
  rw [TransactionsEdges.of, hL.parents]

/-- A parent edge leads from a pool transaction to one it spends from. -/
theorem mem_parents {id parent : Hash} :
    parent ∈ pool.parentTransactions.of id ↔
      ∃ tx, pool.get id = some tx ∧ parent ∈ pool.parentIds tx.mtx := by
  rw [hL.of_parents]
  cases pool.get id with
  | none => simp
  | some tx => simp

/-- A transaction that no pool transaction spends from, itself included, is added with all its
edges. -/
theorem addMempoolTransaction (h : pool.addMempoolTransaction P tx size = some pool')
    (hself : P.idOf tx.mtx ∉ tx.mtx.spentIds)
    (hspent : ∀ id other, pool.get id = some other → P.idOf tx.mtx ∉ other.mtx.spentIds) :
    Linked P pool' := by
  obtain ⟨key, hkey, hnew, hget, hparents, hchained, hready⟩ := addMempoolTransaction_eq_some h
  have hhas : ∀ x, x ≠ P.idOf tx.mtx → pool'.has x = pool.has x := by
    intro x hx
    change (pool'.get x).isSome = (pool.get x).isSome
    rw [hget, if_neg hx]
  have htx : pool'.parentIds tx.mtx = pool.parentIds tx.mtx :=
    parentIds_congr fun x hx => hhas x fun heq => hself (heq ▸ hx)
  have hother : ∀ id other, pool.get id = some other →
      pool'.parentIds other.mtx = pool.parentIds other.mtx := fun id other hid =>
    parentIds_congr fun x hx => hhas x fun heq => hspent id other hid (heq ▸ hx)
  have hof : ∀ x, pool'.parentTransactions.of x = if x = P.idOf tx.mtx then
      pool.parentIds tx.mtx else pool.parentTransactions.of x := by
    intro x
    rw [TransactionsEdges.of, hparents]
    split <;> rfl
  refine ⟨hL.keyed.insert hget, fun id other hid => ?_, fun id => ?_, fun parent child => ?_,
    fun k => ?_⟩
  · rw [hget] at hid
    split at hid
    · exact ⟨key, some.inj hid ▸ hkey⟩
    · exact hL.rated id other hid
  · rw [hparents, hget]
    split
    · rw [map_some, htx]
    · rw [hL.parents]
      cases hid : pool.get id with
      | none => rfl
      | some other => rw [map_some, map_some, hother id other hid]
  · have hnone : P.idOf tx.mtx ∉ pool.chainedTransactions.of parent := by
      rw [hL.chained, hL.mem_parents, hnew]
      rintro ⟨_, ⟨⟩, _⟩
    rw [hchained, hof]
    by_cases hchild : child = P.idOf tx.mtx
    · rw [if_pos hchild, hchild]
      split
      · next hp => exact iff_of_true (Finset.mem_insert_self _ _) hp
      · next hp => exact iff_of_false hnone hp
    · rw [if_neg hchild, ← hL.chained]
      split
      · rw [Finset.mem_insert, or_iff_right hchild]
      · rfl
  · rw [hready, hget, hL.ready]
    by_cases hk : keyId k = P.idOf tx.mtx
    · rw [if_pos hk, hk, hnew]
      constructor
      · rintro (⟨rfl, hempty⟩ | ⟨_, ⟨⟩, _⟩)
        exact ⟨tx, rfl, hkey, htx ▸ hempty⟩
      · rintro ⟨other, hsome, hother, hempty⟩
        cases hsome
        exact .inl ⟨mem_unique hother hkey, htx ▸ hempty⟩
    · rw [if_neg hk]
      have hne : k ≠ key := fun heq => hk (heq ▸ keyId_of_feerateKey hkey)
      rw [or_iff_right fun hand => hne hand.1]
      refine exists_congr fun other => and_congr_right fun hid => ?_
      rw [hother _ other hid]

/-- In an exact graph only the parents of a transaction are chained to it. -/
theorem mem_chainedWithout {id x y : Hash} :
    y ∈ (pool.chainedWithout id).of x ↔ y ≠ id ∧ y ∈ pool.chainedTransactions.of x := by
  rw [of_chainedWithout]
  split
  · rw [Finset.mem_erase]
  · next hx =>
    refine ⟨fun hy => ⟨?_, hy⟩, fun hy => hy.2⟩
    rintro rfl
    exact hx ((hL.chained x y).mp hy)

/-- In an exact graph every parent set of another transaction loses the removed one. -/
theorem get?_parentsWithout {id x : Hash} (hx : x ≠ id) :
    (pool.parentsWithout id).get? x
      = (pool.get x).map fun tx => (pool.parentIds tx.mtx).erase id := by
  rw [parentsWithout, TransactionsEdges.get?_eraseFrom, hL.parents, Option.map_map]
  cases hget : pool.get x with
  | none => rfl
  | some tx =>
    have hiff : x ∈ (pool.chainedWithout id).of id ↔ id ∈ pool.parentIds tx.mtx := by
      rw [hL.mem_chainedWithout, hL.chained, hL.mem_parents, hget]
      simp [hx]
    rw [map_some, map_some, Function.comp_apply]
    split
    · rfl
    · next hid => rw [Finset.erase_eq_of_notMem (mt hiff.mpr hid)]

/-- Edges to a removed transaction are gone on both sides. -/
theorem removed {id : Hash} (h : Removed P id pool pool') :
    Linked P pool' := by
  have hget : ∀ {x tx}, pool'.get x = some tx ↔ x ≠ id ∧ pool.get x = some tx := by
    intro x tx
    rw [h.get]
    by_cases hx : x = id <;> simp [hx]
  have hids : ∀ m, pool'.parentIds m = (pool.parentIds m).erase id := by
    intro m
    ext x
    rw [mem_parentIds, Finset.mem_erase, mem_parentIds, has_eq_true, has_eq_true]
    simp only [hget, exists_and_left]
    exact and_left_comm
  have hparents : ∀ x, pool'.parentTransactions.get? x
      = (pool'.get x).map fun tx => pool'.parentIds tx.mtx := by
    intro x
    rw [h.parents, h.get]
    split
    · rfl
    · next hx =>
      rw [hL.get?_parentsWithout hx]
      simp only [hids]
  refine ⟨fun x tx hx => hL.keyed x tx (hget.mp hx).2, fun x tx hx => hL.rated x tx (hget.mp hx).2,
    hparents, fun parent child => ?_, fun key => ?_⟩
  · have hof : parent ∈ pool'.parentTransactions.of child ↔
        child ≠ id ∧ parent ≠ id ∧ parent ∈ pool.parentTransactions.of child := by
      rw [TransactionsEdges.of, hparents, hL.mem_parents]
      cases hchild : pool'.get child with
      | none =>
        refine iff_of_false (Finset.notMem_empty _) ?_
        rintro ⟨hne, -, tx, htx, -⟩
        rw [hget.mpr ⟨hne, htx⟩] at hchild
        cases hchild
      | some tx =>
        obtain ⟨hne, htx⟩ := hget.mp hchild
        rw [map_some, getD_some, hids, htx]
        simp [hne]
    rw [hof, h.chained]
    by_cases hp : parent = id
    · simp [hp]
    · rw [if_neg hp, hL.mem_chainedWithout, hL.chained]
      simp [hp]
  · rw [h.ready, hL.ready]
    simp only [hget, hids]
    constructor
    · rintro ⟨hne, ⟨x, hx, tx, htx, hkey⟩ | ⟨tx, htx, hkey, hempty⟩⟩
      · obtain rfl : keyId key = x := (keyId_of_feerateKey hkey).trans (hL.keyed x tx htx)
        obtain ⟨hchild, hfreed⟩ := Finset.mem_filter.mp hx
        have hxid := (hL.mem_chainedWithout.mp hchild).1
        rw [hL.get?_parentsWithout hxid, htx] at hfreed
        exact ⟨tx, ⟨hxid, htx⟩, hkey, some.inj hfreed⟩
      · refine ⟨tx, ⟨fun hid => hne tx (hid ▸ htx) hkey, htx⟩, hkey, ?_⟩
        rw [hempty, Finset.erase_empty]
    · rintro ⟨tx, ⟨hne, htx⟩, hkey, hempty⟩
      refine ⟨fun removedTx hid hsame => hne ?_, ?_⟩
      · rw [keyId_of_feerateKey hsame, hL.keyed id removedTx hid]
      · -- a transaction whose only parent goes is freed, any other was ready before
        by_cases hid : id ∈ pool.parentIds tx.mtx
        · refine .inl ⟨keyId key, Finset.mem_filter.mpr ⟨?_, ?_⟩, tx, htx, hkey⟩
          · rw [hL.mem_chainedWithout, hL.chained, hL.mem_parents]
            exact ⟨hne, tx, htx, hid⟩
          · rw [hL.get?_parentsWithout hne, htx, map_some, hempty]
        · rw [Finset.erase_eq_of_notMem hid] at hempty
          exact .inr ⟨tx, htx, hkey, hempty⟩

/-- A transaction replaced by one with the same inputs and the same key keeps its edges. -/
theorem update {m : MutableTransaction}
    (htx : pool.get (P.idOf m) = some tx) (hsame : m.tx = tx.mtx.tx)
    (hkey : P.feerateKey m = P.feerateKey tx.mtx) (size : ℕ) :
    Linked P (pool.put (P.idOf m) { tx with mtx := m } size) := by
  set pool' := pool.put (P.idOf m) { tx with mtx := m } size
  have hget : ∀ x, pool'.get x = if x = P.idOf m then some { tx with mtx := m } else pool.get x :=
    get_put
  have hids : ∀ other, pool'.parentIds other = pool.parentIds other := fun other =>
    parentIds_congr fun x _ => by
      change (pool'.get x).isSome = (pool.get x).isSome
      rw [hget]
      split
      · next hx =>
        rw [hx, htx]
        rfl
      · rfl
  have hm : pool.parentIds m = pool.parentIds tx.mtx := by
    rw [parentIds, parentIds, getParentTransactionIdsInPool, getParentTransactionIdsInPool,
      MutableTransaction.spentIds, MutableTransaction.spentIds, hsame]
  refine ⟨hL.keyed.insert (t := { tx with mtx := m }) hget, fun x other hx => ?_, fun x => ?_,
    hL.chained, fun key => ?_⟩
  · rw [hget] at hx
    split at hx
    · rw [← some.inj hx, hkey]
      exact hL.rated _ tx htx
    · exact hL.rated x other hx
  · change pool.parentTransactions.get? x = _
    rw [hL.parents, hget]
    simp only [hids]
    split
    · next hx => rw [hx, htx, map_some, map_some, hm]
    · rfl
  · change key ∈ pool.readyTransactions.keys ↔ _
    rw [hL.ready, hget]
    simp only [hids]
    split
    · next hx =>
      rw [hx, htx]
      simp only [some.injEq, exists_eq_left', hkey, hm]
    · rfl

end

end Linked

/-! ### The operations of the mempool -/

open KeryxNode.Action

/-- A property of the pool that no removal and no scan for expired transactions can break. -/
structure Stable (P : Params F) (J : TransactionsPool F → Prop) : Prop where
  removed : ∀ {id pool pool'}, J pool → TransactionsPool.Removed P id pool pool' → J pool'
  scanned : ∀ {pool : TransactionsPool F} (daaScore now : ℕ), J pool →
    J { pool with lastExpireScanDaaScore := daaScore, lastExpireScanTime := now }

/-- A property of the mempool that is one of its transaction pool. -/
def OfPool (J : TransactionsPool F → Prop) (mempool : Mempool F) : Prop :=
  J mempool.transactionPool

/-- **What the removal of one transaction leaves.** -/
theorem of_removePoolTransaction {removeRedeemers : Bool} {id : Hash} {mempool mempool' : Mempool F}
    (h : removePoolTransaction P removeRedeemers id mempool = some (r, mempool')) :
    ∃ pool orphans, TransactionsPool.Removed P id mempool.transactionPool pool ∧
      (mempool.transactionPool.get id = none ∧ mempool' = { mempool with transactionPool := pool } ∨
        ∃ tx, mempool.transactionPool.get id = some tx ∧
          mempool' = { forgetAi id tx.mtx.tx mempool with
            transactionPool := pool
            orphanPool := orphans }) := by
  rcases bind_eq_some.mp h with ⟨e, hremove, -⟩ | ⟨tx, removed, hremove, h⟩
  · obtain ⟨pool, hpool, rfl⟩ := zoom_eq_some.mp hremove
    refine ⟨pool, {}, TransactionsPool.removed_of_removeTransaction hpool, .inl ⟨?_, rfl⟩⟩
    exact TransactionsPool.get_of_removeTransaction hpool
  · obtain ⟨pool, hpool, rfl⟩ := zoom_eq_some.mp hremove
    have hrest : Keeps (fun last => ∃ orphans, last = { forgetAi id tx.mtx.tx mempool with
        transactionPool := pool, orphanPool := orphans }) (do
          let _ ← onOrphans (OrphanPool.updateOrphansAfterTransactionRemoved P tx removeRedeemers)
          return () : Op F Unit) :=
      .bind (.zoom fun _ _ orphans hlast _ => ⟨orphans, hlast.elim fun _ h => h ▸ rfl⟩)
        fun _ => .pure _
    obtain ⟨orphans, hlast⟩ := hrest _ r mempool' ⟨mempool.orphanPool, rfl⟩ h
    exact ⟨pool, orphans, TransactionsPool.removed_of_removeTransaction hpool,
      .inr ⟨tx, TransactionsPool.get_of_removeTransaction hpool, hlast⟩⟩

/-- A property of the mempool that no removal and no scan for expired transactions can break, and
that does not depend on the orphans and the accepted transactions. -/
structure Lasting (P : Params F) (I : Mempool F → Prop) : Prop where
  removed : ∀ removeRedeemers id, Keeps I (removePoolTransaction P removeRedeemers id)
  scanned : ∀ {mempool : Mempool F} (daaScore now : ℕ), I mempool →
    I { mempool with transactionPool := { mempool.transactionPool with
      lastExpireScanDaaScore := daaScore, lastExpireScanTime := now } }
  others : ∀ {mempool : Mempool F} (orphans : OrphanPool) (accepted : AcceptedTransactions),
    I mempool → I { mempool with orphanPool := orphans, acceptedTransactions := accepted }

theorem Stable.lasting {J : TransactionsPool F → Prop} (hJ : Stable P J) :
    Lasting P (OfPool J) where
  removed removeRedeemers id mempool r mempool' h hremove := by
    obtain ⟨pool, orphans, hpool, ⟨-, rfl⟩ | ⟨tx, -, rfl⟩⟩ := of_removePoolTransaction hremove <;>
      exact hJ.removed h hpool
  scanned daaScore now h := hJ.scanned daaScore now h
  others _ _ h := h

section Lasting

variable {I : Mempool F → Prop} {α : Type} (hI : Lasting P I)
include hI

/-- What happens to the orphans does not matter. -/
theorem keeps_onOrphans (x : Action OrphanPool RuleError α) : Keeps I (onOrphans x : Op F α) :=
  .zoom fun mempool _ orphans h _ => hI.others orphans mempool.acceptedTransactions h

theorem keeps_removeTransaction (id : Hash) (removeRedeemers : Bool) :
    Keeps I (removeTransaction P id removeRedeemers) := by
  refine .bind .get fun mempool => .ite (fun _ => ?_) fun _ =>
    .ite (fun _ => ?_) fun _ => .pure _
  · exact .bind (keeps_onOrphans hI _) fun _ => .pure _
  · exact .forM fun x _ => hI.removed removeRedeemers x

theorem keeps_executeReplaceByFee (m : MutableTransaction) (rbfPolicy : RbfPolicy) :
    Keeps I (executeReplaceByFee P m rbfPolicy) := by
  refine .bind .get fun mempool => ?_
  cases rbfPolicy with
  | forbidden => exact .bind (.ofExcept _) fun _ => .pure _
  | allowed =>
    dsimp only
    split
    · exact .pure _
    · refine .bind (.ofExcept _) fun removed => .bind ?_ fun _ =>
        .bind ?_ fun _ => .pure _
      · exact .forM fun d _ => .bind (.ofExcept _) fun _ => .pure _
      · exact .forM fun d _ => keeps_removeTransaction hI d.ownerId true
  | mandatory =>
    dsimp only
    split
    · exact .throw _
    · exact .bind (.ofExcept _) fun removed =>
        .bind (keeps_removeTransaction hI _ true) fun _ => .pure _
    · exact .throw _

theorem keeps_makeRoom (transactionSize : ℕ) (ids : List Hash) :
    Keeps I (makeRoom P transactionSize ids) := by
  induction ids with
  | nil => exact .pure _
  | cons id ids ih =>
    exact .bind (keeps_removeTransaction hI id true) fun _ =>
      .bind .get fun mempool => .ite (fun _ => .pure _) fun _ => ih

theorem keeps_unorphanBy (id : Hash) (output : TransactionOutput × ℕ) :
    Keeps I (unorphanBy P id output) := by
  have htransaction : ∀ id, Keeps I (unorphanTransaction P id : Op F _) := by
    intro id
    refine .bind (keeps_onOrphans hI _) fun transactions => ?_
    split
    · exact .bind .get fun mempool => .bind (.ofExcept _) fun _ =>
        .bind (.ofExcept _) fun _ => .pure _
    · exact .unwrap _
  refine .bind (.read _) fun orphan => ?_
  split
  · exact .pure _
  · refine .bind (keeps_onOrphans hI _) fun _ => .ite (fun _ => ?_) fun _ => .pure _
    refine .bind (.attempt (htransaction _)) fun result => ?_
    cases result with
    | ok transaction => exact .pure _
    | error e => exact .pure _

/-- Looking for orphans that find their coins does not touch the pool. -/
theorem keeps_getUnorphanedTransactions (tx : Tx.Transaction) :
    Keeps I
      (getUnorphanedTransactionsAfterAcceptedTransaction P tx : Op F (List MempoolTransaction)) :=
  .bind (.mapM fun output _ => keeps_unorphanBy hI _ output) fun _ => .pure _

theorem keeps_handleBlockTransaction (blockDaaScore : ℕ) (tx : Tx.Transaction) :
    Keeps I (handleBlockTransaction P blockDaaScore tx) := by
  have hdouble : Keeps I (removeDoubleSpends P tx) :=
    .bind (.read _) fun owners =>
      .forM fun id _ => keeps_removeTransaction hI id true
  have hrest : Keeps I (do
      removeDoubleSpends P tx
      let _ ← onOrphans (OrphanPool.removeOrphan P (P.txId tx) false)
      Action.modify (accept (P.txId tx) blockDaaScore)
      getUnorphanedTransactionsAfterAcceptedTransaction P tx) :=
    .bind hdouble fun _ => .bind (keeps_onOrphans hI _) fun _ =>
      .bind (.modify fun mempool h => hI.others mempool.orphanPool _ h) fun _ =>
        keeps_getUnorphanedTransactions hI tx
  refine .bind .get fun mempool => .ite (fun _ => ?_) fun _ => ?_
  · exact .bind (keeps_removeTransaction hI _ false) fun _ => hrest
  · exact hrest

theorem keeps_handleNewBlockTransactions (blockDaaScore : ℕ) (txs : List Tx.Transaction) :
    Keeps I (handleNewBlockTransactions P blockDaaScore txs) := by
  cases txs with
  | nil => exact .unwrap _
  | cons coinbase rest =>
    exact .bind (.mapM fun tx _ => keeps_handleBlockTransaction hI blockDaaScore tx)
      fun _ => .pure _

theorem keeps_expireLowPriorityTransactions (virtualDaaScore now : ℕ) :
    Keeps I (expireLowPriorityTransactions P virtualDaaScore now) := by
  refine .bind (fun mempool r mempool' h hscan => ?_) fun expired =>
    .forM fun id _ => .bind (.attempt (keeps_removeTransaction hI id true)) fun _ =>
      .pure _
  obtain rfl := congrArg Prod.snd (some.inj hscan)
  change I { mempool with transactionPool :=
    (TransactionsPool.collectExpiredLowPriorityTransactions P mempool.transactionPool
      virtualDaaScore now).2 }
  rw [TransactionsPool.collectExpiredLowPriorityTransactions]
  split
  · exact h
  · exact hI.scanned virtualDaaScore now h

end Lasting

/-- An exact graph stays exact when a transaction leaves. -/
theorem stable_linked : Stable P (Linked P) where
  removed hL h := hL.removed h
  scanned _ _ hL := ⟨hL.keyed, hL.rated, hL.parents, hL.chained, hL.ready⟩

/-- No pool transaction spends from a transaction. -/
def Unspent (id : Hash) (pool : TransactionsPool F) : Prop :=
  ∀ x tx, pool.get x = some tx → id ∉ tx.mtx.spentIds

instance (id : Hash) (pool : TransactionsPool F) : Decidable (Unspent id pool) :=
  decidable_of_iff (∀ e ∈ pool.allTransactions.entries, id ∉ e.2.mtx.spentIds)
    ⟨fun h x tx hx => h (x, tx) (OrdMap.get?_eq_some_iff.mp hx),
      fun h e he => h e.1 e.2 (OrdMap.get?_eq_some_iff.mpr he)⟩

/-- A property of each transaction of the pool is stable. -/
theorem stable_forall {Q : Hash → MempoolTransaction → Prop} :
    Stable P fun pool => ∀ x tx, pool.get x = some tx → Q x tx where
  removed h hremoved x tx hx := by
    rw [hremoved.get] at hx
    split at hx
    · cases hx
    · exact h x tx hx
  scanned _ _ h := h

theorem Lasting.and {I J : Mempool F → Prop} (hI : Lasting P I) (hJ : Lasting P J) :
    Lasting P fun mempool => I mempool ∧ J mempool where
  removed removeRedeemers id mempool r mempool' h hremove :=
    ⟨hI.removed removeRedeemers id mempool r mempool' h.1 hremove,
      hJ.removed removeRedeemers id mempool r mempool' h.2 hremove⟩
  scanned daaScore now h := ⟨hI.scanned daaScore now h.1, hJ.scanned daaScore now h.2⟩
  others orphans accepted h := ⟨hI.others orphans accepted h.1, hJ.others orphans accepted h.2⟩

/-! ### Insertion -/

/-- When a transaction comes into a mempool with the property `K`, it has the property `I`. -/
def Admits (P : Params F) (K I : Mempool F → Prop) (m : MutableTransaction) : Prop :=
  ∀ mempool, K mempool → I mempool ∧ ∀ pool priority daaScore size,
    mempool.transactionPool.addMempoolTransaction P ⟨m, priority, daaScore⟩ size = some pool →
      I (registerAi (P.idOf m) m.tx { mempool with transactionPool := pool })

section Insertion

variable {K I : Mempool F → Prop} (hK : Lasting P K) (hadmits : Admits P K I m)
  (virtualDaaScore : ℕ) (priority : Priority)
include hK hadmits

omit hK in
/-- An insertion, provided that the selected transactions may leave. -/
theorem of_insertTransaction {mempool mempool' : Mempool F} {r : Except RuleError Unit}
    (hroom : ∀ selected, mempool.transactionPool.limitTransactionCount P m
      (P.mempoolEstimatedBytes m) = some (.ok selected) →
      Keeps K (makeRoom P (P.mempoolEstimatedBytes m) selected)) (hstart : K mempool)
    (h : insertTransaction P m virtualDaaScore priority mempool = some (r, mempool')) :
    I mempool' := by
  have hKI : ∀ mempool, K mempool → I mempool := fun mempool h => (hadmits mempool h).1
  obtain ⟨selected, hselected, h⟩ := unwrap_bind_eq_some.mp h
  cases selected with
  | error e =>
    cases h
    exact hKI mempool hstart
  | ok txsToRemove =>
    refine (Leads.bind hKI (hroom txsToRemove hselected) fun _ => Leads.bind hKI Keeps.get
      fun mempool => Leads.ite (fun _ start r last hstart h => ?_)
        fun _ => Leads.of_keeps hKI (.unwrap _)) mempool r mempool' hstart h
    rcases bind_eq_some.mp h with ⟨e, hadd, -⟩ | ⟨_, added, hadd, hregister⟩
    · cases (tryModify_eq_some.mp hadd).1
    · obtain ⟨pool, hpool, rfl⟩ := map_eq_some_iff.mp (tryModify_eq_some.mp hadd).2
      cases hregister
      exact (hadmits start hstart).2 pool priority virtualDaaScore _ hpool

/-- What makes room for a transaction only removes others. -/
theorem leads_insertTransaction : Leads K (insertTransaction P m virtualDaaScore priority) I :=
  fun _ _ _ hstart h => of_insertTransaction hadmits virtualDaaScore priority
    (fun _ _ => keeps_makeRoom hK _ _) hstart h

theorem leads_postValidateAndInsertTransaction (validationResult : Except RuleError Unit)
    (orphan : Orphan) (rbfPolicy : RbfPolicy) :
    Leads K (postValidateAndInsertTransaction P validationResult m virtualDaaScore priority orphan
      rbfPolicy) I := by
  have hKI : ∀ mempool, K mempool → I mempool := fun mempool h => (hadmits mempool h).1
  refine Leads.bind hKI Keeps.get fun mempool => Leads.ite
    (fun _ => Leads.of_keeps hKI (.throw _)) fun _ =>
      Leads.bind hKI (Keeps.ofExcept _) fun _ => ?_
  split
  · refine Leads.of_keeps hKI (.ite (fun _ => .throw _) fun _ => ?_)
    exact .bind (.ofExcept _) fun _ => .bind (keeps_onOrphans hK _) fun _ =>
      .pure _
  · exact Leads.of_keeps hKI (.throw _)
  · exact Leads.bind hKI (Keeps.ofExcept _) fun _ =>
      Leads.bind hKI (keeps_executeReplaceByFee hK m rbfPolicy) fun removed =>
      Leads.bind (fun _ h => h) (leads_insertTransaction hK hadmits virtualDaaScore priority)
        fun _ => Keeps.pure _

end Insertion

/-! ### Revalidation -/

/-- Whatever the pool has under the id of a transaction has the same inputs and the same key. -/
def Agrees (P : Params F) (m : MutableTransaction) (pool : TransactionsPool F) : Prop :=
  ∀ tx, pool.get (P.idOf m) = some tx → m.tx = tx.mtx.tx ∧ P.feerateKey m = P.feerateKey tx.mtx

theorem populateMempoolEntries_eq_some {mempool : Mempool F} {m' : MutableTransaction}
    (h : mempool.populateMempoolEntries m = some m') :
    m' = m.mapEntries fun input entry => (mempool.populateMempoolEntry input entry).join := by
  rw [populateMempoolEntries] at h
  split at h
  · exact (some.inj h).symm
  · cases h

/-- Preparing a transaction only changes its entries. -/
theorem agrees_of_prepareRevalidation {mempool : Mempool F}
    {view : TransactionOutpoint → Option UtxoEntry} {id : Hash}
    (hkeyed : Keyed P mempool.transactionPool)
    (h : mempool.prepareRevalidation view id = some (some m)) :
    Agrees P m mempool.transactionPool := by
  rw [prepareRevalidation] at h
  split at h
  · cases h
  · next tx htx =>
    split at h
    · cases h
    · obtain ⟨m', hm', h⟩ := map_eq_some_iff.mp h
      obtain rfl := populateMempoolEntries_eq_some hm'
      split at h
      · cases h
      · cases h
        intro tx' htx'
        have hid : P.idOf tx.mtx = id := hkeyed id tx htx
        change mempool.transactionPool.get (P.idOf tx.mtx) = some tx' at htx'
        rw [hid, htx] at htx'
        cases htx'
        exact ⟨rfl, rfl⟩

theorem stable_agrees (ms : List MutableTransaction) :
    Stable P fun pool => ∀ m ∈ ms, Agrees P m pool where
  removed h hremoved m hm tx htx := by
    rw [hremoved.get] at htx
    split at htx
    · cases htx
    · exact h m hm tx htx
  scanned _ _ h := h

/-- A property of the mempool that its operations keep, as long as the transactions that come in
are fit for it. -/
structure Invariant (P : Params F) (I : Mempool F → Prop) : Prop extends Lasting P I where
  start : I {}
  updated : ∀ {mempool m tx} (size : ℕ), I mempool →
    mempool.transactionPool.get (P.idOf m) = some tx → m.tx = tx.mtx.tx →
    P.feerateKey m = P.feerateKey tx.mtx → I { mempool with
      transactionPool := mempool.transactionPool.put (P.idOf m) { tx with mtx := m } size }

namespace Invariant

variable {I : Mempool F → Prop} (hI : Invariant P I)
include hI

/-- Finishing one of the prepared transactions leaves the others as they were prepared. -/
theorem keeps_finishRevalidation {ms : List MutableTransaction} (hm : m ∈ ms) :
    Keeps (fun mempool => I mempool ∧ ∀ m ∈ ms, Agrees P m mempool.transactionPool)
      (finishRevalidation P m : Op F Unit) := by
  have hJ := hI.toLasting.and (stable_agrees ms).lasting
  refine .ite (fun _ => .tryModify ?_) fun _ =>
    .bind (.attempt (keeps_removeTransaction hJ _ false)) fun _ => .pure _
  rintro mempool mempool' ⟨hL, hagrees⟩ hupdate
  obtain ⟨⟨found, pool⟩, hpool, rfl⟩ := map_eq_some_iff.mp hupdate
  rw [TransactionsPool.updateRevalidatedTransaction] at hpool
  split at hpool
  · obtain rfl := congrArg Prod.snd (some.inj hpool)
    exact ⟨hL, hagrees⟩
  · next tx htx =>
    simp only [bind_eq_some_iff] at hpool
    obtain ⟨size, -, hpool⟩ := hpool
    obtain rfl := congrArg Prod.snd (some.inj hpool)
    obtain ⟨hsame, hkey⟩ := hagrees m hm tx htx
    refine ⟨hI.updated _ hL htx hsame hkey, fun other hother tx' htx' => ?_⟩
    change (insert _ _ _).get? _ = some tx' at htx'
    rw [get?_insert] at htx'
    split at htx'
    · next hid =>
      cases htx'
      obtain ⟨hsame', hkey'⟩ := hagrees other hother tx (hid ▸ htx)
      exact ⟨hsame'.trans hsame.symm, hkey'.trans hkey.symm⟩
    · exact hagrees other hother tx' htx'

theorem of_revalidateTransactions (ids : List Hash)
    (view : TransactionOutpoint → Option UtxoEntry) {mempool₀ mempool' : Mempool F}
    (hkeyed : Keyed P mempool₀.transactionPool) (hL : I mempool₀)
    (hrun : revalidateTransactions P ids view mempool₀ = some (r, mempool')) : I mempool' := by
  obtain ⟨prepared, hprepare, h⟩ := unwrap_bind_eq_some.mp hrun
  have hagrees : ∀ m ∈ prepared.reduceOption, Agrees P m mempool₀.transactionPool := by
    intro m hm
    obtain ⟨id, -, hid⟩ := (mem_of_mapM_eq_some hprepare).mp (reduceOption_mem_iff.mp hm)
    exact agrees_of_prepareRevalidation hkeyed hid
  have hloop := Keeps.forM (l := prepared.reduceOption) fun _ hm => hI.keeps_finishRevalidation hm
  exact (hloop mempool₀ r mempool' ⟨hL, hagrees⟩ h).1

end Invariant

/-! ### Runs -/

/-- What an operation brings in may come in. -/
def Operation.Fits (P : Params F) (I : Mempool F → Prop) (mempool : Mempool F) : Operation → Prop
  | .insert _ m _ _ _ _ => ∃ K, Lasting P K ∧ K mempool ∧ Admits P K I m
  | _ => True

/-- **One operation.** -/
theorem Invariant.of_perform {I : Mempool F → Prop} (hI : Invariant P I)
    {mempool mempool' : Mempool F}
    (hkeyed : Keyed P mempool.transactionPool) (h : I mempool) (hop : op.Fits P I mempool)
    (hrun : op.perform P mempool = some (r, mempool')) : I mempool' := by
  have hlasting := hI.toLasting
  cases op with
  | insert validationResult m virtualDaaScore priority orphan rbfPolicy =>
    obtain ⟨K, hK, hmempool, hadmits⟩ := hop
    refine Leads.bind (fun _ h => h) (leads_postValidateAndInsertTransaction hK hadmits
      virtualDaaScore priority validationResult orphan rbfPolicy) (fun result => ?_) mempool r
      mempool' hmempool hrun
    cases result.accepted with
    | none => exact Keeps.pure _
    | some tx =>
      exact Keeps.bind (keeps_getUnorphanedTransactions hlasting tx) fun _ => Keeps.pure _
  | remove id removeRedeemers =>
    exact keeps_removeTransaction hlasting id removeRedeemers mempool r mempool' h hrun
  | newBlock blockDaaScore txs =>
    exact Keeps.bind (keeps_handleNewBlockTransactions hlasting blockDaaScore txs)
      (fun _ => Keeps.pure _) mempool r mempool' h hrun
  | revalidate ids view => exact hI.of_revalidateTransactions ids view hkeyed h hrun
  | expireOrphans virtualDaaScore => exact keeps_onOrphans hlasting _ mempool r mempool' h hrun
  | expireAccepted virtualDaaScore now =>
    refine Keeps.modify (fun mempool h => ?_) mempool r mempool' h hrun
    rw [expireAcceptedTransactions]
    split
    · exact h
    · exact hI.others mempool.orphanPool _ h
  | expireLowPriority virtualDaaScore now =>
    exact keeps_expireLowPriorityTransactions hlasting virtualDaaScore now mempool r mempool' h hrun

theorem invariant_keyed : Invariant P (OfPool (F := F) (Keyed P)) where
  toLasting := stable_forall.lasting
  start := nofun
  updated {_ m tx} _ hkeyed _ _ _ :=
    Keyed.insert (t := { tx with mtx := m }) hkeyed TransactionsPool.get_put

theorem fits_keyed {mempool : Mempool F}
    (hkeyed : Keyed P mempool.transactionPool) : op.Fits P (OfPool (Keyed P)) mempool := by
  cases op with
  | insert _ m _ _ _ _ =>
    refine ⟨_, stable_forall.lasting, hkeyed, fun start h => ⟨h, fun pool _ _ _ hpool => ?_⟩⟩
    obtain ⟨-, -, -, hget, -⟩ := TransactionsPool.addMempoolTransaction_eq_some hpool
    exact Keyed.insert h hget
  | _ => trivial

/-- **A run.** -/
theorem Invariant.of_after {I : Mempool F → Prop} (hI : Invariant P I) {operations : List Operation}
    (hfits : ∀ before op later mempool, operations = before ++ op :: later →
      after P before = some mempool → I mempool → op.Fits P I mempool)
    {mempool : Mempool F} (hrun : after P operations = some mempool) :
    Keyed P mempool.transactionPool ∧ I mempool := by
  refine foldlM_invariant (I := fun mempool => Keyed P mempool.transactionPool ∧ I mempool)
    ?_ (fun ⟨hkeyed, h⟩ hfit hlast => ?_) hfits hrun
  · exact ⟨nofun, hI.start⟩
  · obtain ⟨⟨r, _⟩, hperform, rfl⟩ := map_eq_some_iff.mp hlast
    exact ⟨invariant_keyed.of_perform hkeyed hkeyed (fits_keyed hkeyed) hperform,
      hI.of_perform hkeyed h (hfit h) hperform⟩

/-! ### Exact runs -/

/-- An insertion brings in a transaction that neither itself nor a pool transaction spends from. -/
def Operation.InsertsUnspent (P : Params F) (mempool : Mempool F) : Operation → Prop
  | .insert _ m _ _ _ _ => P.idOf m ∉ m.spentIds ∧ Unspent (P.idOf m) mempool.transactionPool
  | _ => True

instance (mempool : Mempool F) (op : Operation) : Decidable (op.InsertsUnspent P mempool) :=
  match op with
  | .insert _ m _ _ _ _ =>
    inferInstanceAs (Decidable (P.idOf m ∉ m.spentIds ∧ Unspent (P.idOf m) _))
  | .remove .. | .newBlock .. | .revalidate .. | .expireOrphans .. | .expireAccepted ..
  | .expireLowPriority .. => inferInstanceAs (Decidable True)

/-- The graph is what the transactions of the pool determine: the parents of a transaction are the
pool transactions it spends from, the chained relation is the inverse, and the frontier has exactly
the transactions without parents. -/
structure DependencyGraphExact (pool : TransactionsPool F) : Prop where
  parents : ∀ id tx, pool.get id = some tx → ∀ parent,
    parent ∈ pool.parentTransactions.of id ↔ pool.has parent = true ∧ parent ∈ tx.mtx.spentIds
  chained : ∀ parent child, child ∈ pool.chainedTransactions.of parent ↔
    parent ∈ pool.parentTransactions.of child
  ready : ∀ id, (∃ key ∈ pool.readyTransactions.keys, keyId key = id) ↔
    pool.has id = true ∧ pool.parentTransactions.of id = ∅

theorem Linked.dependencyGraphExact {pool : TransactionsPool F} (hL : Linked P pool) :
    DependencyGraphExact pool where
  parents id tx hid parent := by
    rw [hL.mem_parents, hid]
    simp only [some.injEq, exists_eq_left', TransactionsPool.mem_parentIds]
    exact and_comm
  chained := hL.chained
  ready id := by
    rw [TransactionsPool.has_eq_true, hL.of_parents]
    constructor
    · rintro ⟨key, hkey, rfl⟩
      obtain ⟨tx, htx, -, hempty⟩ := (hL.ready key).mp hkey
      rw [htx]
      exact ⟨⟨tx, rfl⟩, hempty⟩
    · rintro ⟨⟨tx, htx⟩, hempty⟩
      rw [htx] at hempty
      obtain ⟨key, hkey⟩ := hL.rated id tx htx
      have hid : keyId key = id := (keyId_of_feerateKey hkey).trans (hL.keyed id tx htx)
      exact ⟨key, (hL.ready key).mpr ⟨tx, hid ▸ htx, hkey, hempty⟩, hid⟩

theorem linked_empty : Linked P ({} : TransactionsPool F) where
  keyed _ _ h := by cases h
  rated _ _ h := by cases h
  parents _ := rfl
  chained _ _ := iff_of_false (Finset.notMem_empty _) (Finset.notMem_empty _)
  ready _ := ⟨nofun, by rintro ⟨_, ⟨⟩, _⟩⟩

/-- An exact graph is an invariant of the mempool. -/
theorem invariant_linked : Invariant P (OfPool (Linked P)) where
  toLasting := stable_linked.lasting
  start := linked_empty
  updated size hL htx hsame hkey := hL.update htx hsame hkey size

theorem Operation.InsertsUnspent.fits {mempool : Mempool F}
    (hop : op.InsertsUnspent P mempool) (hL : Linked P mempool.transactionPool) :
    op.Fits P (OfPool (Linked P)) mempool := by
  cases op with
  | insert _ m _ _ _ _ =>
    refine ⟨fun mempool => OfPool (Linked P) mempool ∧ OfPool (Unspent (P.idOf m)) mempool,
      stable_linked.lasting.and stable_forall.lasting, ⟨hL, hop.2⟩, fun mempool h => ⟨h.1, ?_⟩⟩
    exact fun pool priority daaScore size hpool => h.1.addMempoolTransaction hpool hop.1 h.2
  | _ => trivial

/-- A small configuration: the id of a transaction is its lock time, its fee rate its fee. -/
def sampleParams : Params ℕ where
  txId tx := Fin.ofNat _ tx.lockTime
  feerate fee _ := fee
  weight fee _ := fee
  exceeds a b := decide (b < a)
  zeroRate := 0
  maxRate := max
  walk := id
  walk_perm := List.Perm.refl
  mempoolEstimatedBytes _ := 1
  calculateTransactionNonContextualMasses _ := (1, 1)
  checkTransactionStandardInIsolation _ := .ok ()
  checkTransactionStandardInContext _ := .ok ()
  verifyResponderSignature _ _ _ := true
  transactionExpireIntervalDaaScore := 600
  transactionExpireScanIntervalDaaScore := 100
  acceptedTransactionExpireIntervalDaaScore := 1200
  acceptedTransactionExpireScanIntervalDaaScore := 100
  orphanExpireIntervalDaaScore := 600
  orphanExpireScanIntervalDaaScore := 100

/-- A transaction with one output that spends the first output of each of some others, all coins
known. -/
def sampleSpend (id fee : ℕ) (spent : List Hash) : MutableTransaction where
  tx :=
    { inputs := spent.map fun parent => { previousOutpoint := ⟨parent, 0⟩ }
      outputs := [{ value := 1, scriptPublicKey := ⟨0, []⟩ }]
      lockTime := id }
  entries := List.replicate spent.length (some (UtxoEntry.new 1 ⟨0, []⟩ 0 false))
  calculatedFee := some fee
  calculatedNonContextualMasses := some (1, 1)
  aligned := by rw [List.length_replicate, List.length_map]

/-- The insertion of a transaction the consensus found valid. -/
def sampleInsert (m : MutableTransaction) : Operation :=
  .insert (.ok ()) m 0 .high .forbidden .forbidden

/-- A transaction comes in, then one that spends it. The coin of the first is not found when it is
validated again, so it leaves alone; then it comes in a second time. -/
def returningParent : List Operation :=
  [sampleInsert (sampleSpend 1 5 [9]), sampleInsert (sampleSpend 2 5 [1]),
    .revalidate [1] fun _ => none, sampleInsert (sampleSpend 1 5 [9])]

/-- A child that leaves and comes back while its parent stays. -/
def returningChild : List Operation :=
  [sampleInsert (sampleSpend 1 5 [9]), sampleInsert (sampleSpend 2 5 [1]), .remove 2 true,
    sampleInsert (sampleSpend 2 5 [1])]

/-- Every key of the frontier is that of a transaction in the pool. -/
def NoneStale (P : Params F) (pool : TransactionsPool F) : Prop :=
  ∀ key ∈ pool.readyTransactions.keys, ∃ id tx, pool.get id = some tx ∧
    P.feerateKey tx.mtx = some key

theorem stable_noneStale : Stable P (NoneStale P) where
  removed {id pool pool'} h hremoved key hkey := by
    obtain ⟨hne, hready⟩ := (hremoved.ready key).mp hkey
    obtain ⟨x, tx, hx, htx⟩ : ∃ x tx, pool.get x = some tx ∧ P.feerateKey tx.mtx = some key :=
      hready.elim (fun ⟨x, _, hx⟩ => ⟨x, hx⟩) (h key)
    refine ⟨x, tx, ?_, htx⟩
    rw [hremoved.get, if_neg, hx]
    rintro rfl
    exact hne tx hx htx
  scanned _ _ h := h

theorem invariant_noneStale : Invariant P (OfPool (NoneStale P)) where
  toLasting := stable_noneStale.lasting
  start _ hkey := nomatch hkey
  updated {mempool m tx} size h htx _ hkey key hready := by
    obtain ⟨x, tx', hx, htx'⟩ := h key hready
    by_cases hid : x = P.idOf m
    · obtain rfl := some.inj (htx.symm.trans (hid ▸ hx))
      exact ⟨x, _, (TransactionsPool.get_put x).trans (if_pos hid), hkey.trans htx'⟩
    · exact ⟨x, tx', (TransactionsPool.get_put x).trans ((if_neg hid).trans hx), htx'⟩

theorem fits_noneStale {mempool : Mempool F} (h : NoneStale P mempool.transactionPool) :
    op.Fits P (OfPool (NoneStale P)) mempool := by
  cases op with
  | insert _ m _ _ _ _ =>
    refine ⟨_, stable_noneStale.lasting, h, fun _ h => ⟨h, fun pool _ _ _ hpool key hkey => ?_⟩⟩
    obtain ⟨new, hnew, hnone, hget, -, -, hready⟩ :=
      TransactionsPool.addMempoolTransaction_eq_some hpool
    rcases (hready key).mp hkey with ⟨rfl, -⟩ | hold
    · exact ⟨_, _, (hget _).trans (if_pos rfl), hnew⟩
    · obtain ⟨x, tx, hx, htx⟩ := h key hold
      refine ⟨x, tx, (hget x).trans ((if_neg ?_).trans hx), htx⟩
      rintro rfl
      cases hnone.symm.trans hx
  | _ => trivial

end Mempool

end KeryxNode
