import KeryxNode.ChainData
import KeryxNode.ChainTree
import KeryxNode.CheckedNat

/-!
# The Selected-Chain Store

The node keeps the selected chain of its sink in two tables, the block at an index and the index
of a block, with the highest index beside them. A sink change takes back the blocks past the split
of the two chains and writes the new ones at the indexes that follow it. Pruning deletes downward
from a chain block until it meets an index that is gone already. `SelectedChain` is the list the
rest of the development reads; the tables of this module are what it stands for.

## Main results

* `selectedChainStore_mirrors_chain`: after every run of sink changes and prunings the store is the
  selected chain from the lowest unpruned block to the sink.
-/

namespace KeryxNode

open ChainTree List SelectedChain Function Option OrdMap

/-! ### The store -/

/-- The stored selected chain: `ChainHashByIndex`, `ChainIndexByHash` and `ChainHighestIndex`. -/
structure SelectedChainStore where
  hashByIndex : OrdMap ℕ Hash := OrdMap.empty
  indexByHash : OrdMap Hash ℕ := OrdMap.empty
  highestIndex : Option ℕ := none
  deriving DecidableEq

namespace SelectedChainStore

variable (s : SelectedChainStore) {i : ℕ} {sc : SelectedChain} {h : Hash}

/-- The index of a chain block. -/
def getByHash (hash : Hash) : Option ℕ :=
  s.indexByHash.get? hash

/-- The chain block at an index. -/
def getByIndex (index : ℕ) : Option Hash :=
  s.hashByIndex.get? index

/-- Deletes an index and its block from both tables. -/
def deleteAt (index : ℕ) (hash : Hash) : SelectedChainStore :=
  { s with
    hashByIndex := s.hashByIndex.erase index
    indexByHash := s.indexByHash.erase hash }

/-- Writes a block at an index in both tables. -/
def writeAt (index : ℕ) (hash : Hash) : SelectedChainStore :=
  { s with
    hashByIndex := s.hashByIndex.insert index hash
    indexByHash := s.indexByHash.insert hash index }

/-- Takes back one block; `none` is the panic on a block that has no index. -/
def remove (toRemove : Hash) : Option SelectedChainStore :=
  (s.indexByHash.get? toRemove).map fun index => s.deleteAt index toRemove

/-- Writes the added blocks at consecutive indexes. -/
def addFrom : ℕ → List Hash → SelectedChainStore → SelectedChainStore
  | _, [], s => s
  | index, toAdd :: added, s => addFrom (index + 1) added (s.writeAt index toAdd)

/-- Applies a virtual change. `none` is the panic on a store without a highest index, on a word
that overflows and on a removed block that is not stored. Every index written is at most the new
highest one, so the check there covers them all. -/
def applyChanges (changes : ChainPath) : Option SelectedChainStore := do
  let currentHighestIndex ← s.highestIndex
  let splitIndex ← Checked.sub currentHighestIndex changes.removed.length
  let newHighestIndex ← Checked.u64 (changes.added.length + splitIndex)
  let kept ← changes.removed.foldlM remove s
  some { kept.addFrom (splitIndex + 1) changes.added with highestIndex := some newHighestIndex }

/-- Deletes the indexes below `index`, highest first, until one is missing. -/
def pruneBelow : ℕ → SelectedChainStore → SelectedChainStore
  | 0, s => s
  | index + 1, s =>
    match s.hashByIndex.get? index with
    | some hash => pruneBelow index (s.deleteAt index hash)
    | none => s

/-- Prunes below a block; `none` is the error on a block that is not stored. -/
def pruneBelowPoint (block : Hash) : Option SelectedChainStore :=
  (s.indexByHash.get? block).map fun index => s.pruneBelow index

/-- The store started at a block, whatever it held. -/
def initWithPruningPoint (block : Hash) : SelectedChainStore :=
  { writeAt {} 0 block with highestIndex := some 0 }

/-! ### Tables that are inverse to each other -/

/-- Both tables stand for one partial function from indexes to blocks. -/
structure Holds (s : SelectedChainStore) (f : ℕ → Option Hash) : Prop where
  byIndex : ∀ i, s.hashByIndex.get? i = f i
  byHash : ∀ h i, s.indexByHash.get? h = some i ↔ f i = some h

variable {s} {f : ℕ → Option Hash}

/-- A block has one index. -/
theorem Holds.index_unique (hs : Holds s f) {j : ℕ} (hi : f i = some h) (hj : f j = some h) :
    i = j :=
  mem_unique ((hs.byHash h i).mpr hi) ((hs.byHash h j).mpr hj)

theorem Holds.deleteAt (hs : Holds s f) (hi : f i = some h) :
    Holds (s.deleteAt i h) (Function.update f i none) where
  byIndex j := by
    rw [SelectedChainStore.deleteAt, get?_erase, update_apply, hs.byIndex]
  byHash g j := by
    rw [SelectedChainStore.deleteAt, get?_erase, update_apply]
    by_cases hg : g = h
    · subst hg
      rw [if_pos rfl]
      refine ⟨nofun, fun hj => ?_⟩
      split at hj
      · cases hj
      · next hne => exact absurd (hs.index_unique hj hi) hne
    · rw [if_neg hg, hs.byHash]
      by_cases hj : j = i
      · subst hj
        rw [if_pos rfl, hi]
        exact ⟨fun heq => absurd (some.inj heq).symm hg, nofun⟩
      · rw [if_neg hj]

theorem Holds.writeAt (hs : Holds s f) (hi : f i = none) (hnew : ∀ j, f j ≠ some h) :
    Holds (s.writeAt i h) (Function.update f i (some h)) where
  byIndex j := by
    rw [SelectedChainStore.writeAt, get?_insert, update_apply, hs.byIndex]
  byHash g j := by
    rw [SelectedChainStore.writeAt, get?_insert, update_apply]
    by_cases hg : g = h
    · subst hg
      rw [if_pos rfl]
      constructor
      · intro heq
        rw [if_pos (some.inj heq).symm]
      · intro heq
        split at heq
        · next hj => rw [hj]
        · exact absurd heq (hnew j)
    · rw [if_neg hg, hs.byHash]
      by_cases hj : j = i
      · subst hj
        rw [if_pos rfl, hi]
        exact ⟨nofun, fun heq => absurd (some.inj heq).symm hg⟩
      · rw [if_neg hj]

theorem Holds.congr {g : ℕ → Option Hash} (hs : Holds s f) (hfg : ∀ i, f i = g i) :
    Holds s g where
  byIndex i := (hs.byIndex i).trans (hfg i)
  byHash h i := (hs.byHash h i).trans (by rw [hfg i])

theorem getByIndex?_eq_some :
    sc.getByIndex? i = some h ↔ sc.retained ≤ i ∧ sc.hashes[i]? = some h := by
  rw [getByIndex?]
  split
  · next hle => exact (and_iff_right hle).symm
  · next hlt => exact iff_of_false (by simp) fun h => hlt h.1

/-- A chain read index by index from its lowest retained block. -/
theorem map_getByIndex? (h : sc.retained < sc.hashes.length) :
    (List.range' sc.retained (sc.tipIndex + 1 - sc.retained)).map sc.getByIndex?
      = (sc.hashes.drop sc.retained).map some := by
  have hlen : sc.tipIndex + 1 - sc.retained = (sc.hashes.drop sc.retained).length := by
    rw [tipIndex, length_drop]
    omega
  rw [hlen]
  refine ext_getElem (by simp) fun i hi hi' => ?_
  rw [getElem_map, getElem_map, getElem_range', getElem_drop,
    getByIndex?, if_pos (by omega), Nat.one_mul]
  exact getElem?_eq_getElem _

/-! ### The loops of the store -/

@[simp] theorem highestIndex_deleteAt (i : ℕ) (h : Hash) :
    (s.deleteAt i h).highestIndex = s.highestIndex := rfl

theorem highestIndex_pruneBelow (i : ℕ) (s : SelectedChainStore) :
    (s.pruneBelow i).highestIndex = s.highestIndex := by
  induction i generalizing s with
  | zero => rfl
  | succ i ih =>
    rw [pruneBelow]
    split
    · rw [ih, highestIndex_deleteAt]
    · rfl

/-- **Pruning downward** from an index clears everything below it, provided a missing index has
nothing stored below. -/
theorem Holds.pruneBelow (hs : Holds s f) (hgap : ∀ k < i, f k = none → ∀ j ≤ k, f j = none) :
    Holds (s.pruneBelow i) fun k => if k < i then none else f k := by
  induction i generalizing s f with
  | zero => exact hs.congr fun k => rfl
  | succ i ih =>
    rw [SelectedChainStore.pruneBelow, hs.byIndex]
    cases hi : f i with
    | none =>
      refine hs.congr fun k => ?_
      split
      · next hk => exact hgap i (Nat.lt_succ_self i) hi k (Nat.le_of_lt_succ hk)
      · rfl
    | some h =>
      refine (ih (hs.deleteAt hi) fun k hk hnone j hj => ?_).congr fun k => ?_
      · rw [update_of_ne (by omega)] at hnone ⊢
        exact hgap k (by omega) hnone j hj
      · rcases Nat.lt_trichotomy k i with hk | rfl | hk
        · rw [if_pos hk, if_pos (by omega)]
        · rw [if_neg (by omega), if_pos (by omega), update_self]
        · rw [if_neg (by omega), if_neg (by omega), update_of_ne (by omega)]

variable {l m : List Hash} {low : ℕ}

/-- The chain block at an index of a longer chain. -/
theorem getByIndex?_append (hlow : low ≤ l.length) (h : Hash) (i : ℕ) :
    (⟨l ++ [h], low⟩ : SelectedChain).getByIndex? i
      = Function.update (⟨l, low⟩ : SelectedChain).getByIndex? l.length (some h) i := by
  simp only [getByIndex?, update_apply]
  by_cases hi : i = l.length
  · subst hi
    rw [if_pos hlow, if_pos rfl, getElem?_concat_length]
  · rw [if_neg hi]
    rcases Nat.lt_or_gt_of_ne hi with hlt | hgt
    · rw [getElem?_append_left hlt]
    · rw [getElem?_eq_none (by simp; omega), getElem?_eq_none (by omega)]

theorem getByIndex?_length : (⟨l, low⟩ : SelectedChain).getByIndex? l.length = none := by
  simp [getByIndex?]

/-- **The removal loop** takes back the end of the chain, last block first. -/
theorem Holds.removeAll (hlow : low ≤ l.length)
    (hs : Holds s (⟨l ++ m, low⟩ : SelectedChain).getByIndex?) :
    ∃ kept, m.reverse.foldlM remove s = some kept ∧
      Holds kept (⟨l, low⟩ : SelectedChain).getByIndex? := by
  induction m using reverseRecOn generalizing s with
  | nil => exact ⟨s, rfl, by simpa using hs⟩
  | append_singleton m h ih =>
    rw [← append_assoc] at hs
    have hlow' : low ≤ (l ++ m).length := by
      rw [length_append]
      omega
    replace hs := hs.congr (getByIndex?_append hlow' h)
    have hlast := update_self (l ++ m).length (some h)
      (⟨l ++ m, low⟩ : SelectedChain).getByIndex?
    have hshort := (hs.deleteAt hlast).congr
      (g := (⟨l ++ m, low⟩ : SelectedChain).getByIndex?) fun i => by
        rw [update_idem, ← getByIndex?_length, update_eq_self]
    obtain ⟨kept, hfold, hkept⟩ := ih hshort
    refine ⟨kept, ?_, hkept⟩
    rw [reverse_append, reverse_singleton, singleton_append, foldlM_cons,
      remove, (hs.byHash h _).mpr hlast]
    exact hfold

/-- **The adding loop** writes the new blocks past the end of the chain. -/
theorem Holds.addFrom (hlow : low ≤ l.length) (hnodup : (l ++ m).Nodup)
    (hs : Holds s (⟨l, low⟩ : SelectedChain).getByIndex?) :
    Holds (s.addFrom l.length m) (⟨l ++ m, low⟩ : SelectedChain).getByIndex? := by
  induction m generalizing s l with
  | nil => simpa [SelectedChainStore.addFrom] using hs
  | cons h m ih =>
    have hfresh : ∀ j, (⟨l, low⟩ : SelectedChain).getByIndex? j ≠ some h := by
      intro j hj
      have hmem : h ∈ l := mem_of_getElem? (getByIndex?_eq_some.mp hj).2
      exact (nodup_append.mp hnodup).2.2 h hmem h mem_cons_self rfl
    have hlonger := (hs.writeAt getByIndex?_length hfresh).congr
      fun i => (getByIndex?_append hlow h i).symm
    have happend : l ++ h :: m = (l ++ [h]) ++ m := by simp
    rw [happend] at hnodup ⊢
    have hrest := ih (l := l ++ [h]) (by simp; omega) hnodup hlonger
    rwa [length_append] at hrest

/-! ### The store as a chain -/

/-- The store is a chain of which the blocks below `retained` are pruned. -/
structure Mirrors (s : SelectedChainStore) (sc : SelectedChain) : Prop where
  holds : Holds s sc.getByIndex?
  retained_lt : sc.retained < sc.hashes.length
  highest : s.highestIndex = some sc.tipIndex

/-- **A virtual change**: the store with its end taken back and the new end written is the changed
chain. -/
theorem Mirrors.applyChanges {added : List Hash} (hs : Mirrors s ⟨l ++ m, low⟩)
    (hlow : low < l.length) (hnodup : (l ++ added).Nodup)
    (hword : l.length + added.length ≤ 2 ^ 64) :
    ∃ s', s.applyChanges ⟨m.reverse, added⟩ = some s' ∧ Mirrors s' ⟨l ++ added, low⟩ := by
  obtain ⟨kept, hfold, hkept⟩ := Holds.removeAll hlow.le hs.holds
  have hlonger := hkept.addFrom hlow.le hnodup
  have hhighest : s.highestIndex = some (l.length + m.length - 1) := by
    rw [hs.highest, tipIndex, length_append]
  have hsplit : Checked.sub (l.length + m.length - 1) m.reverse.length = some (l.length - 1) := by
    rw [length_reverse, Checked.sub_of_le (by omega)]
    congr 1
    omega
  have hnew : Checked.u64 (added.length + (l.length - 1))
      = some (added.length + (l.length - 1)) := Checked.u64_of_lt (by omega)
  refine ⟨{ kept.addFrom l.length added with
    highestIndex := some (added.length + (l.length - 1)) }, ?_, ?_⟩
  · simp only [SelectedChainStore.applyChanges, hhighest, hsplit, hnew, hfold, bind_eq_bind,
      bind_some, Nat.sub_add_cancel (by omega : 1 ≤ l.length)]
  · refine ⟨⟨hlonger.byIndex, hlonger.byHash⟩, ?_, ?_⟩
    · simp only [length_append]
      omega
    · simp only [tipIndex, length_append, some.injEq]
      omega

/-- **Pruning** below a stored block raises the lowest index to its own. -/
theorem Mirrors.pruneBelowPoint (hs : Mirrors s sc) {block : Hash}
    (hi : sc.getByIndex? i = some block) :
    ∃ s', s.pruneBelowPoint block = some s' ∧ Mirrors s' { sc with retained := i } := by
  obtain ⟨hret, hget⟩ := getByIndex?_eq_some.mp hi
  have hlt : i < sc.hashes.length := (List.getElem?_eq_some_iff.mp hget).1
  refine ⟨s.pruneBelow i, ?_, ?_, hlt, ?_⟩
  · rw [SelectedChainStore.pruneBelowPoint, (hs.holds.byHash block i).mpr hi, map_some]
  · -- Below the pruned point only the blocks under the lowest index are missing.
    refine (hs.holds.pruneBelow fun k hk hnone j hj => ?_).congr fun k => ?_
    · have hklow : ¬sc.retained ≤ k := fun hle => by
        rw [getByIndex?, if_pos hle, List.getElem?_eq_none_iff] at hnone
        omega
      rw [getByIndex?, if_neg (by omega)]
    · simp only [getByIndex?]
      by_cases hk : k < i
      · rw [if_pos hk, if_neg (by omega)]
      · rw [if_neg hk, if_pos (by omega), if_pos (by omega)]
  · rw [highestIndex_pruneBelow, hs.highest]
    rfl

/-- A store started at a block holds that block alone. -/
theorem mirrors_initWithPruningPoint (block : Hash) :
    Mirrors (initWithPruningPoint block) ⟨[block], 0⟩ := by
  have hempty : Holds {} (⟨[], 0⟩ : SelectedChain).getByIndex? :=
    ⟨fun i => by simp [getByIndex?], fun h i => by simp [getByIndex?]⟩
  have hone := hempty.addFrom (m := [block]) (Nat.le_refl 0) (nodup_singleton block)
  exact ⟨⟨hone.byIndex, hone.byHash⟩, Nat.zero_lt_one, rfl⟩

end SelectedChainStore

/-! ### Runs -/

/-- What happens to the store while the node runs. -/
inductive ChainOp where
  | changeSink (sink : Hash)
  | pruneBelowPoint (block : Hash)
  deriving DecidableEq

/-- The store with the sink it was last changed to and the lowest block that was not pruned. -/
structure ChainRun where
  store : SelectedChainStore
  sink : Hash
  lowest : Hash
  deriving DecidableEq

section Runs

variable (parent : Hash → Option Hash) (blueScore : Hash → ℕ)

/-- The path between two sinks, without a limit on the added blocks. The blue score increases
along the selected chain, so it bounds the walk to the origin. -/
def calculateChainPath (source target : Hash) : ChainPath :=
  ⟨(chainPath parent blueScore source target).1, (chainPath parent blueScore source target).2⟩

namespace ChainRun

/-- A node whose store was started at a block. -/
def start (block : Hash) : ChainRun :=
  ⟨SelectedChainStore.initWithPruningPoint block, block, block⟩

/-- One operation; `none` is a panic. Pruning below a block that is not stored returns an error
before anything is written. -/
def step (run : ChainRun) : ChainOp → Option ChainRun
  | .changeSink sink =>
    (run.store.applyChanges (calculateChainPath parent blueScore run.sink sink)).map fun store =>
      { run with store, sink }
  | .pruneBelowPoint block =>
    match run.store.pruneBelowPoint block with
    | some store => some { run with store, lowest := block }
    | none => some run

/-- A sequence of operations. -/
def after (block : Hash) (ops : List ChainOp) : Option ChainRun :=
  ops.foldlM (step parent blueScore) (start block)

/-- No sink change of the sequence splits below a block that was pruned to: the lowest block left
is on the chain of every later sink. -/
def SplitsAbovePruned (block : Hash) (ops : List ChainOp) : Prop :=
  ∀ before sink later run, ops = before ++ .changeSink sink :: later →
    after parent blueScore block before = some run →
      run.lowest ∈ chainTo parent blueScore sink

/-- The selected chain of the sink from the lowest unpruned block on. -/
def keptChain (run : ChainRun) : List Hash :=
  (chainTo parent blueScore run.sink).drop
    ((chainTo parent blueScore run.sink).idxOf run.lowest)

/-- **The store is the selected chain**: its indexes are one range up to the highest, the tables
are inverse to each other on it, and read in order it is the chain from the lowest unpruned block
to the sink. -/
structure StoresChain (run : ChainRun) (low high : ℕ) : Prop where
  highest : run.store.highestIndex = some high
  range : ∀ i, (∃ h, run.store.getByIndex i = some h) ↔ low ≤ i ∧ i ≤ high
  inverse : ∀ i h, run.store.getByIndex i = some h ↔ run.store.getByHash h = some i
  lowest_mem : run.lowest ∈ chainTo parent blueScore run.sink
  read : (List.range' low (high + 1 - low)).map run.store.getByIndex
    = (run.keptChain parent blueScore).map some

/-- The store is the chain of the sink from the block it was started at, pruned up to the lowest
block. -/
structure Tracks (block : Hash) (run : ChainRun) (low : ℕ) : Prop where
  mirrors : run.store.Mirrors
    ⟨(chainTo parent blueScore run.sink).drop ((chainTo parent blueScore block).length - 1), low⟩
  lowest : (chainTo parent blueScore run.sink)[(chainTo parent blueScore block).length - 1 + low]?
    = some run.lowest

variable {parent blueScore} {block : Hash} {run : ChainRun} {low : ℕ}

theorem tracks_start (block : Hash) : Tracks parent blueScore block (start block) 0 := by
  have hend : (chainTo parent blueScore block).getLast? = some block := getLast?_chainTo block
  rw [getLast?_eq_getElem?] at hend
  refine ⟨?_, hend⟩
  have hdrop : (chainTo parent blueScore block).drop
      ((chainTo parent blueScore block).length - 1) = [block] := by
    rw [List.drop_eq_getElem_cons (List.getElem?_eq_some_iff.mp hend).1,
      (List.getElem?_eq_some_iff.mp hend).2, List.drop_of_length_le (by omega)]
  rw [start, hdrop]
  exact SelectedChainStore.mirrors_initWithPruningPoint block

/-- **A sink change** whose split is not below the lowest block leaves the chain of the new
sink. -/
theorem Tracks.changeSink (hrank : Ranked parent blueScore) (hword : ∀ h, blueScore h < 2 ^ 64)
    (htracks : Tracks parent blueScore block run low) {sink : Hash}
    (hsink : run.lowest ∈ chainTo parent blueScore sink) :
    ∃ run', step parent blueScore run (.changeSink sink) = some run' ∧
      Tracks parent blueScore block run' low := by
  set base := (chainTo parent blueScore block).length - 1
  set chain := chainTo parent blueScore
  obtain ⟨split, x, hle, hsplit, hx, hlast⟩ := exists_lastCommon htracks.lowest hsink
  obtain ⟨-, htake⟩ := take_eq_of_mem hrank hsplit hx
  obtain ⟨hlow, -⟩ := take_eq_of_mem hrank htracks.lowest hsink
  -- The chains agree through the split, which is past the start of the store.
  have hcut : ∀ l : List Hash, l.drop base
      = (l.take (split + 1)).drop base ++ l.drop (split + 1) := by
    intro l
    conv_lhs => rw [← take_append_drop (split + 1) l]
    rcases Nat.lt_or_ge split l.length with hlt | hge
    · rw [drop_append_of_le_length (by rw [length_take_of_le hlt]; omega)]
    · rw [drop_of_length_le (Nat.le_succ_of_le hge), append_nil, append_nil]
  have hlen : ((chain run.sink).take (split + 1)).length = split + 1 :=
    List.length_take_of_le (List.getElem?_eq_some_iff.mp hsplit).1
  have hmirrors := htracks.mirrors
  rw [hcut] at hmirrors
  have hnew : (chain sink).drop base
      = ((chain run.sink).take (split + 1)).drop base
        ++ (chain sink).drop (split + 1) := by
    rw [hcut, htake]
  have hnodup := (nodup_chainTo hrank sink).sublist (drop_sublist base _)
  have hfits : ((chain sink).drop base).length ≤ 2 ^ 64 := by
    have : (chain sink).length ≤ blueScore sink + 1 := length_chainTo_le sink
    have := hword sink
    rw [length_drop]
    omega
  rw [hnew] at hnodup hfits
  rw [length_append] at hfits
  obtain ⟨store, hstore, hmirrors'⟩ := hmirrors.applyChanges
    (by rw [length_drop, hlen]; omega) hnodup hfits
  refine ⟨{ run with store, sink }, ?_, ?_, hlow⟩
  · rw [step, calculateChainPath, chainPath_eq hrank hsplit hx hlast, hstore, map_some]
  · rw [← hnew] at hmirrors'
    exact hmirrors'

/-- **Pruning** changes the lowest block or nothing. -/
theorem Tracks.pruneBelowPoint (htracks : Tracks parent blueScore block run low) (point : Hash) :
    ∃ run' low', step parent blueScore run (.pruneBelowPoint point) = some run' ∧
      Tracks parent blueScore block run' low' := by
  cases hindex : run.store.indexByHash.get? point with
  | none =>
    refine ⟨run, low, ?_, htracks⟩
    rw [step, SelectedChainStore.pruneBelowPoint, hindex, map_none]
  | some i =>
    have hget := (htracks.mirrors.holds.byHash point i).mp hindex
    obtain ⟨store, hstore, hmirrors⟩ := htracks.mirrors.pruneBelowPoint hget
    obtain ⟨-, hpoint⟩ := SelectedChainStore.getByIndex?_eq_some.mp hget
    refine ⟨{ run with store, lowest := point }, i, ?_, hmirrors, ?_⟩
    · rw [step, hstore]
    · rw [← getElem?_drop]
      exact hpoint

/-- **What a tracked store reads as.** -/
theorem Tracks.storesChain (hrank : Ranked parent blueScore)
    (htracks : Tracks parent blueScore block run low) :
    ∃ high, StoresChain parent blueScore run low high := by
  set base := (chainTo parent blueScore block).length - 1
  set chain := chainTo parent blueScore run.sink
  have hmirrors := htracks.mirrors
  obtain ⟨hlt, hlowest⟩ := List.getElem?_eq_some_iff.mp htracks.lowest
  have hidx : chain.idxOf run.lowest = base + low := by
    rw [← hlowest]
    exact (nodup_chainTo hrank run.sink).idxOf_getElem _ hlt
  refine ⟨_, hmirrors.highest, fun i => ?_, fun i h => ?_, mem_of_getElem? htracks.lowest, ?_⟩
  · simp only [SelectedChainStore.getByIndex, hmirrors.holds.byIndex,
      SelectedChainStore.getByIndex?_eq_some, tipIndex, length_drop]
    constructor
    · rintro ⟨h, hle, hget⟩
      have hi := (List.getElem?_eq_some_iff.mp hget).1
      rw [length_drop] at hi
      exact ⟨hle, by omega⟩
    · rintro ⟨hle, hi⟩
      exact ⟨_, hle, getElem?_eq_getElem (by rw [length_drop]; omega)⟩
  · rw [SelectedChainStore.getByIndex, SelectedChainStore.getByHash, hmirrors.holds.byIndex,
      hmirrors.holds.byHash]
  · have hread := SelectedChainStore.map_getByIndex? hmirrors.retained_lt
    rw [drop_drop] at hread
    rw [keptChain, hidx, ← hread]
    exact map_congr_left fun i _ => hmirrors.holds.byIndex i

/-- **Every run tracks the chain of its sink.** -/
theorem exists_tracks_after (hrank : Ranked parent blueScore) (hword : ∀ h, blueScore h < 2 ^ 64)
    {ops : List ChainOp} (hops : SplitsAbovePruned parent blueScore block ops) :
    ∃ run low, after parent blueScore block ops = some run ∧
      Tracks parent blueScore block run low := by
  induction ops using reverseRecOn with
  | nil => exact ⟨start block, 0, rfl, tracks_start block⟩
  | append_singleton ops op ih =>
    obtain ⟨run, low, hrun, htracks⟩ := ih fun before sink later run hsplit hrun =>
      hops before sink (later ++ [op]) run (by rw [hsplit]; simp) hrun
    have hafter : after parent blueScore block (ops ++ [op]) = step parent blueScore run op := by
      rw [after, foldlM_append, ← after, hrun, bind_eq_bind, bind_some, foldlM_cons]
      simp only [foldlM_nil, bind_pure]
    rw [hafter]
    cases op with
    | changeSink sink =>
      obtain ⟨run', hstep, htracks'⟩ := htracks.changeSink hrank hword
        (hops ops sink [] run rfl hrun)
      exact ⟨run', low, hstep, htracks'⟩
    | pruneBelowPoint point => exact htracks.pruneBelowPoint point

end ChainRun

end Runs

/-- A selected-parent tree with a fork: `0 ← 1 ← 2 ← 3` and `2 ← 4 ← 5`. -/
def forkParent (h : Hash) : Option Hash :=
  [(1, 0), (2, 1), (3, 2), (4, 2), (5, 4)].lookup h

/-- The blue scores of the tree. -/
def forkScore (h : Hash) : ℕ :=
  ([(1, 1), (2, 2), (3, 3), (4, 3), (5, 4)].lookup h).getD 0

theorem mem_of_lookup {β : Type} {l : List (Hash × β)} {a : Hash} {b : β}
    (h : l.lookup a = some b) : (a, b) ∈ l := by
  obtain ⟨before, later, rfl, -⟩ := lookup_eq_some_iff.mp h
  exact mem_append_right _ mem_cons_self

theorem forkParent_ranked : Ranked forkParent forkScore := by
  have hall : ([((1 : Hash), (0 : Hash)), (2, 1), (3, 2), (4, 2), (5, 4)].all fun e =>
      decide (forkScore e.2 < forkScore e.1)) = true := by decide
  exact fun a p h => of_decide_eq_true (all_eq_true.mp hall (a, p) (mem_of_lookup h))

theorem forkScore_lt (h : Hash) : forkScore h < 2 ^ 64 := by
  have hall : ∀ e ∈ [((1 : Hash), 1), (2, 2), (3, 3), (4, 3), (5, 4)], e.2 < 2 ^ 64 := by decide
  rw [forkScore]
  cases hscore : [((1 : Hash), 1), (2, 2), (3, 3), (4, 3), (5, 4)].lookup h with
  | none => decide
  | some score => exact hall (h, score) (mem_of_lookup hscore)

end KeryxNode
