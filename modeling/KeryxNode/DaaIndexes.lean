import KeryxNode.MergesetOrder

/-!
# DAA Indexes

A block of a mergeset gets a DAA index when the mergeset is sampled, before the score of the block
that merges it is known. The score is computed afterwards from the blocks that count, and the
parallel-block cap takes some of those out again. As long as the cap takes out none, the indexes of
a mergeset are the numbers between the score of the selected parent and that of the block; they
increase along a selected chain and no index is used twice. A block taken out by the cap keeps its
index, so the indexes run past the score, and the next block of the chain uses them again.

## Main results

* `daa_indexes_exact_iff`: for every block of a DAG, and along every validated chain.
* `capped_block_shifts_indexes`: twenty-one parallel blocks, and an index used twice.
-/

namespace KeryxNode

open Ghostdag List OrdMap
open Option (mem_unique map_some)

namespace Window

namespace SampledWindowManager

variable {W : SampledWindowManager} {D : Dag Hash} {d : GhostdagData}
  {nonDaa : Finset Hash} {w : DaaWindow} {score : ℕ} {x : Hash}

/-! ### Indexes and conditions -/

/-- The blocks of a mergeset that are given a DAA index. The mergesets of genesis and of its
children are not iterated over. -/
def daaIndexes (W : SampledWindowManager) (d : GhostdagData) : Option (List (Hash × ℕ)) :=
  if d.selectedParent = W.stores.genesisHash ∨ d.selectedParent = origin then some []
  else do
    let parent ← W.stores.ghostdagStore.get? d.selectedParent
    let indexed ← W.indexedMergeset d parent.blueWork
    return indexed.filterMap fun e => e.2.map fun index => (e.1.hash, index)

/-- The indexes of the mergeset blocks that count are those between the score of the selected parent
and that of the block, and blocks that do not count have none. -/
def IndexesExact (W : SampledWindowManager) (d : GhostdagData) (w : DaaWindow) : Prop :=
  ∃ score indexes, W.daaScore d.selectedParent = some score ∧ W.daaIndexes d = some indexes ∧
    score ≤ w.daaScore ∧
    (indexes.filter fun e => decide (e.1 ∉ w.mergesetNonDaa)).map Prod.snd
      = range' (score + 1) (w.daaScore - score) ∧
    ∀ e ∈ indexes, e.1 ∉ w.mergesetNonDaa

/-- Whether a block is not too old to count. -/
def isRecent (W : SampledWindowManager) (d : GhostdagData) (x : Hash) : Bool :=
  decide (W.lowestDaaBlueScore d ≤ (W.blueScore x).getD 0)

/-- The selected parent of a stored block. -/
def selectedParentOf (W : SampledWindowManager) (x : Hash) : Option Hash :=
  (W.stores.ghostdagStore.get? x).map (·.selectedParent)

/-- The cap is not active, or no more blocks of the mergeset share a selected parent than it
allows. -/
def WithinCap (W : SampledWindowManager) (d : GhostdagData) : Prop :=
  ∀ score, W.daaScore d.selectedParent = some score → W.h5Activation ≤ score →
    ∀ p, (d.unorderedMergesetWithoutSelectedParent.filter fun x =>
      W.isRecent d x && decide (W.selectedParentOf x = some p)).length ≤ parallelBlockCapN

/-! ### The indexes of a mergeset -/

/-- The indexed blocks are the recent ones. -/
theorem map_fst_indexes {indexed : List (SortableBlock × Option ℕ)}
    (h : ∀ e ∈ indexed, e.2 = none ↔ W.isRecent d e.1.hash = false) :
    ((indexed.filterMap fun e => e.2.map fun index => (e.1.hash, index)).map Prod.fst)
      = (indexed.map fun e => e.1.hash).filter (W.isRecent d) := by
  rw [map_filterMap, ← filterMap_eq_filter, filterMap_map]
  refine filterMap_congr fun e he => ?_
  have hold := h e he
  cases hindex : e.2 <;> simp_all [Option.guard]

theorem map_snd_indexes (indexed : List (SortableBlock × Option ℕ)) :
    ((indexed.filterMap fun e => e.2.map fun index => (e.1.hash, index)).map Prod.snd)
      = indexed.filterMap Prod.snd := by
  rw [map_filterMap]
  refine filterMap_congr fun e _ => ?_
  cases e.2 <;> rfl

theorem isRecent_eq_false_iff :
    W.isRecent d x = false ↔ (W.blueScore x).getD 0 < W.lowestDaaBlueScore d := by
  rw [isRecent, decide_eq_false_iff_not, not_le]

theorem map_hash_of_perm {blocks : List SortableBlock}
    (h : blocks.Perm (d.unorderedMergeset.map W.stores.key)) :
    (blocks.map SortableBlock.hash).Perm d.unorderedMergeset := by
  have hperm := h.map SortableBlock.hash
  rwa [map_map, show SortableBlock.hash ∘ W.stores.key = id from rfl, map_id] at hperm

variable (hm : W.stores.Merges D d)
include hm

/-- The indexes of the mergeset of a block: its recent blocks are numbered on from the score of the
selected parent. -/
theorem daaIndexes_eq (hgenesis : d.selectedParent ≠ W.stores.genesisHash)
    (hscore : W.daaScore d.selectedParent = some score) :
    ∃ (blocks : List Hash) (indexes : List (Hash × ℕ)), W.daaIndexes d = some indexes ∧
      blocks.Perm d.unorderedMergeset ∧
      indexes.map Prod.fst = blocks.filter (W.isRecent d) ∧
      indexes.map Prod.snd = range' (score + 1) indexes.length := by
  obtain ⟨parent, hparent⟩ := hm.selectedParent_stored
  obtain ⟨blocks, indexed, hindexed, hperm, hidx⟩ := indexedMergeset_eq hm hparent hscore
  refine ⟨blocks.map SortableBlock.hash, indexed.filterMap fun e => e.2.map fun index =>
    (e.1.hash, index), ?_, map_hash_of_perm hperm, ?_, ?_⟩
  · rw [daaIndexes, if_neg (not_or.mpr ⟨hgenesis, hm.selectedParent_ne⟩), hparent,
      some_bind, hindexed]
    rfl
  · rw [map_fst_indexes fun e he => (hidx.tooOld e he).trans isRecent_eq_false_iff.symm,
      ← hidx.blocks, map_map]
    rfl
  · have hlength : (indexed.filterMap fun e => e.2.map fun index => (e.1.hash, index)).length
        = (indexed.filterMap Prod.snd).length := by
      rw [← map_snd_indexes, length_map]
    rw [map_snd_indexes, hlength]
    exact hidx.consecutive

/-! ### Blocks that do not count -/

omit hm in
/-- The blocks a mergeset iteration reports as too old. -/
theorem nonDaaHashes_filterMap {indexed : List (SortableBlock × Option ℕ)} (rate : ℕ)
    (h : ∀ e ∈ indexed, e.2 = none ↔ W.isRecent d e.1.hash = false) :
    nonDaaHashes (indexed.filterMap (sample rate))
      = ((indexed.map fun e => e.1.hash).filter fun x => !W.isRecent d x).toFinset := by
  rw [nonDaaHashes, filterMap_filterMap, ← filterMap_eq_filter, filterMap_map]
  congr 1
  refine filterMap_congr fun e he => ?_
  have hold := h e he
  obtain ⟨b, _ | index⟩ := e
  · simp_all [sample]
  · rw [sample]
    split <;> simp_all [Option.guard]

/-- The blocks reported with a window, whatever is cached. -/
theorem nonDaa_of_build {t : WindowType} {window : BlockWindowHeap} (hsize : W.windowSize t ≠ 0)
    (hgenesis : d.selectedParent ≠ W.stores.genesisHash)
    (hbuild : W.buildBlockWindow d t = some (.ok (window, nonDaa))) :
    nonDaa = (d.unorderedMergeset.filter fun x => !W.isRecent d x).toFinset := by
  obtain ⟨parent, hparent⟩ := hm.selectedParent_stored
  obtain ⟨score, hscore⟩ := exists_daaScore hm
  obtain ⟨blocks, indexed, hindexed, hperm, hidx⟩ := indexedMergeset_eq hm hparent hscore
  have hset : nonDaa = nonDaaHashes (indexed.filterMap (sample (W.sampleRate t))) := by
    rw [buildBlockWindow, if_neg hsize, if_neg hgenesis, if_neg hm.selectedParent_ne, hparent,
      some_bind, sampledMergesetIterator, hindexed, map_some, some_bind] at hbuild
    split at hbuild
    · obtain ⟨-, rfl⟩ := Prod.mk.inj (Except.ok.inj (Option.some.inj hbuild))
      exact pushMergeset_snd _ _
    · obtain ⟨walked, -, hbuild⟩ := Option.bind_eq_some_iff.mp hbuild
      obtain ⟨heap, -, hpair⟩ := map_eq_ok.mp (Option.some.inj hbuild)
      obtain ⟨-, rfl⟩ := Prod.mk.inj hpair
      exact pushMergeset_snd _ _
  rw [hset, nonDaaHashes_filterMap _ fun e he =>
    (hidx.tooOld e he).trans isRecent_eq_false_iff.symm]
  refine toFinset_eq_of_perm _ _ (Perm.filter _ ?_)
  have hhash := map_hash_of_perm hperm
  rwa [← hidx.blocks, map_map] at hhash

/-! ### The cap -/

omit hm in
theorem mem_of_mem_surplus {group : List Hash} (hx : x ∈ surplus group) : x ∈ group := by
  rw [surplus] at hx
  split at hx
  · exact (perm_insertionSort _ group).mem_iff.mp (mem_of_mem_drop hx)
  · cases hx

omit hm in
theorem surplus_eq_nil_iff {group : List Hash} :
    surplus group = [] ↔ group.length ≤ parallelBlockCapN := by
  rw [surplus]
  split
  · next hlt =>
    rw [drop_eq_nil_iff, (perm_insertionSort _ group).length_eq]
  · next hle => exact iff_of_true rfl (not_lt.mp hle)

/-- The blocks of a mergeset that count and have a given selected parent. -/
def parallelBlocks (W : SampledWindowManager) (nonDaa : Finset Hash) (blocks : List Hash)
    (p : Hash) : List Hash :=
  blocks.filter fun x => decide (x ∉ nonDaa) && decide (W.selectedParentOf x = some p)

omit hm in
/-- The groups that the blocks of a mergeset form. -/
theorem foldlM_groupByParent (nonDaa : Finset Hash) {blocks : List Hash}
    (hstored : ∀ x ∈ blocks, ∃ data, W.stores.ghostdagStore.get? x = some data) :
    ∃ byParent, blocks.foldlM (W.groupByParent nonDaa) empty = some byParent ∧
      ∀ p, (byParent.get? p).getD [] = W.parallelBlocks nonDaa blocks p := by
  induction blocks using reverseRecOn with
  | nil => exact ⟨empty, rfl, fun _ => rfl⟩
  | append_singleton blocks x ih =>
    obtain ⟨byParent, hfold, hgroups⟩ := ih fun y hy => hstored y (mem_append_left _ hy)
    obtain ⟨data, hdata⟩ := hstored x (mem_append_right _ (mem_singleton_self x))
    have hparent : W.selectedParentOf x = some data.selectedParent := by
      rw [selectedParentOf, hdata, map_some]
    rw [foldlM_append, hfold, some_bind, foldlM_cons]
    by_cases hx : x ∈ nonDaa
    · refine ⟨byParent, ?_, fun p => ?_⟩
      · rw [groupByParent, if_pos hx]
        rfl
      · rw [hgroups p, parallelBlocks, parallelBlocks, filter_append,
          filter_cons_of_neg (by simp [hx]), filter_nil, append_nil]
    · refine ⟨byParent.insert data.selectedParent
        ((byParent.get? data.selectedParent).getD [] ++ [x]), ?_, fun p => ?_⟩
      · rw [groupByParent, if_neg hx, hdata]
        rfl
      · rw [get?_insert, parallelBlocks, filter_append, ← parallelBlocks, ← hgroups p]
        by_cases hp : p = data.selectedParent
        · rw [if_pos hp, Option.getD_some, hp,
            filter_cons_of_pos (by simp [hx, hparent]), filter_nil]
        · rw [if_neg hp, filter_cons_of_neg (by simp [hparent, Ne.symm hp]),
            filter_nil, append_nil]

omit hm in
theorem mem_foldl_union {groups : List (Hash × List Hash)} :
    x ∈ groups.foldl (fun s group => s ∪ (surplus group.2).toFinset) nonDaa
      ↔ x ∈ nonDaa ∨ ∃ group ∈ groups, x ∈ surplus group.2 := by
  induction groups generalizing nonDaa with
  | nil => simp
  | cons group groups ih =>
    rw [foldl_cons, ih, Finset.mem_union, mem_toFinset, or_assoc, exists_mem_cons_iff]

/-- **The cap** takes out the surplus of every group of parallel blocks, if it is active. -/
theorem mem_applyParallelBlockCap (hscore : W.daaScore d.selectedParent = some score)
    {capped : Finset Hash} (hcapped : W.applyParallelBlockCap d nonDaa = some capped) :
    x ∈ capped ↔ x ∈ nonDaa ∨ (W.h5Activation ≤ score ∧ ∃ p, x ∈ surplus
      (W.parallelBlocks nonDaa d.unorderedMergesetWithoutSelectedParent p)) := by
  obtain ⟨byParent, hfold, hgroups⟩ := foldlM_groupByParent nonDaa hm.stored
  rw [applyParallelBlockCap, hscore, some_bind, hfold] at hcapped
  split at hcapped
  · next hactive =>
    obtain rfl := Option.some.inj hcapped
    rw [mem_foldl_union]
    refine or_congr_right ⟨?_, ?_⟩
    · rintro ⟨⟨p, group⟩, hmem, hx⟩
      have hget : byParent.get? p = some group := get?_eq_some_iff.mpr hmem
      refine ⟨hactive, p, ?_⟩
      rwa [← hgroups p, hget]
    · rintro ⟨-, p, hx⟩
      rw [← hgroups p] at hx
      cases hget : byParent.get? p with
      | none =>
        rw [hget] at hx
        exact absurd (mem_of_mem_surplus hx) not_mem_nil
      | some group =>
        rw [hget] at hx
        exact ⟨(p, group), get?_eq_some_iff.mp hget, hx⟩
  · next hinactive =>
    obtain rfl := Option.some.inj hcapped
    exact ⟨.inl, fun h => h.resolve_right fun h => hinactive h.1⟩

/-! ### Scores -/

omit hm in
/-- What the window of a validated block was computed from. -/
theorem of_blockDaaWindow (hw : W.blockDaaWindow d = some (.ok w))
    (hscore : W.daaScore d.selectedParent = some score) :
    ∃ nonDaa, W.buildBlockWindow d .difficultyWindow = some (.ok (w.window, nonDaa)) ∧
      W.applyParallelBlockCap d nonDaa = some w.mergesetNonDaa ∧
      w.daaScore = score + (d.mergesetSize - w.mergesetNonDaa.card) := by
  obtain ⟨built, hbuilt, hw⟩ := Option.bind_eq_some_iff.mp hw
  cases built with
  | error e => cases hw
  | ok pair =>
    obtain ⟨window, nonDaa⟩ := pair
    obtain ⟨capped, hcapped, hw⟩ := Option.bind_eq_some_iff.mp hw
    obtain ⟨daaScore, hcalc, hw⟩ := Option.bind_eq_some_iff.mp hw
    cases hw
    refine ⟨nonDaa, hbuilt, hcapped, ?_⟩
    rw [calcDaaScore, hscore] at hcalc
    split at hcalc
    · exact (Option.some.inj hcalc).symm
    · cases hcalc

theorem unorderedMergeset_eq :
    d.unorderedMergeset = d.selectedParent :: d.unorderedMergesetWithoutSelectedParent := by
  rw [GhostdagData.unorderedMergeset, hm.head]
  rfl

theorem nodup_unorderedMergeset : d.unorderedMergeset.Nodup := by
  rw [unorderedMergeset_eq hm]
  exact nodup_cons.mpr ⟨fun hmem => hm.outside _ hmem (.refl _), hm.nodup⟩

omit hm in
theorem length_unorderedMergeset : d.unorderedMergeset.length = d.mergesetSize :=
  length_append

/-- The parallel blocks among those that are not too old. -/
theorem parallelBlocks_eq (p : Hash) :
    W.parallelBlocks (d.unorderedMergeset.filter fun x => !W.isRecent d x).toFinset
        d.unorderedMergesetWithoutSelectedParent p
      = d.unorderedMergesetWithoutSelectedParent.filter fun x =>
        W.isRecent d x && decide (W.selectedParentOf x = some p) := by
  refine filter_congr fun x hx => ?_
  have hmem : x ∈ d.unorderedMergeset := by
    rw [unorderedMergeset_eq hm]
    exact mem_cons_of_mem _ hx
  have hiff : decide (x ∉ (d.unorderedMergeset.filter fun x => !W.isRecent d x).toFinset)
      = W.isRecent d x := by
    rw [Bool.eq_iff_iff, decide_eq_true_iff, mem_toFinset, mem_filter,
      Bool.not_eq_true', and_iff_right hmem, Bool.not_eq_false]
  rw [hiff]

section Validated

variable {w : DaaWindow} {score : ℕ} (hw : W.blockDaaWindow d = some (.ok w))
  (hscore : W.daaScore d.selectedParent = some score)
include hw hscore

section

variable (hsize : W.difficultyWindowSize ≠ 0)
include hsize

section

variable (hgenesis : d.selectedParent ≠ W.stores.genesisHash)
include hgenesis

/-- The blocks that do not count are too old, or surplus under an active cap. -/
theorem mem_mergesetNonDaa :
    x ∈ w.mergesetNonDaa ↔ x ∈ d.unorderedMergeset.filter (fun x => !W.isRecent d x) ∨
      (W.h5Activation ≤ score ∧ ∃ p, x ∈ surplus
        (d.unorderedMergesetWithoutSelectedParent.filter fun x =>
          W.isRecent d x && decide (W.selectedParentOf x = some p))) := by
  obtain ⟨nonDaa, hbuild, hcapped, -⟩ := of_blockDaaWindow hw hscore
  obtain rfl := nonDaa_of_build (t := .difficultyWindow) hm hsize hgenesis hbuild
  simp only [mem_applyParallelBlockCap hm hscore hcapped, parallelBlocks_eq hm, mem_toFinset]

/-- Nothing is taken out of a mergeset within the cap. -/
theorem mergesetNonDaa_eq_of_withinCap (hcap : W.WithinCap d) :
    w.mergesetNonDaa = (d.unorderedMergeset.filter fun x => !W.isRecent d x).toFinset := by
  ext x
  rw [mem_mergesetNonDaa hm hw hscore hsize hgenesis, mem_toFinset]
  refine ⟨fun h => h.resolve_right ?_, Or.inl⟩
  rintro ⟨hactive, p, hx⟩
  rw [surplus_eq_nil_iff.mpr (hcap score hscore hactive p)] at hx
  cases hx

/-- A block that the cap takes out has an index all the same. -/
theorem exists_capped_of_not_withinCap (hcap : ¬ W.WithinCap d) :
    ∃ x ∈ d.unorderedMergeset, W.isRecent d x = true ∧ x ∈ w.mergesetNonDaa := by
  simp only [WithinCap, not_forall, not_le] at hcap
  obtain ⟨score', hscore', hactive, p, hlong⟩ := hcap
  obtain rfl := mem_unique hscore hscore'
  obtain ⟨x, hx⟩ := exists_mem_of_ne_nil _ (surplus_eq_nil_iff.not.mpr hlong.not_ge)
  obtain ⟨hxm, hprop⟩ := mem_filter.mp (mem_of_mem_surplus hx)
  refine ⟨x, ?_, (Bool.and_eq_true_iff.mp hprop).1,
    (mem_mergesetNonDaa hm hw hscore hsize hgenesis).mpr (.inr ⟨hactive, p, hx⟩)⟩
  rw [unorderedMergeset_eq hm]
  exact mem_cons_of_mem _ hxm

/-- A block above a child of genesis: its indexes are exact within the cap only. -/
theorem indexesExact_iff_withinCap :
    W.IndexesExact d w ↔ W.WithinCap d := by
  obtain ⟨blocks, indexes, hindexes, hperm, hfst, hsnd⟩ := daaIndexes_eq hm hgenesis hscore
  constructor
  · rintro ⟨score', indexes', -, hindexes', -, -, hnone⟩
    obtain rfl := mem_unique hindexes hindexes'
    by_contra hcap
    obtain ⟨x, hx, hrecent, hcapped⟩ :=
      exists_capped_of_not_withinCap hm hw hscore hsize hgenesis hcap
    have hmem : x ∈ indexes.map Prod.fst := by
      rw [hfst]
      exact mem_filter.mpr ⟨hperm.mem_iff.mpr hx, hrecent⟩
    obtain ⟨e, he, rfl⟩ := mem_map.mp hmem
    exact hnone e he hcapped
  · intro hcap
    have hset := mergesetNonDaa_eq_of_withinCap hm hw hscore hsize hgenesis hcap
    have hnone : ∀ e ∈ indexes, e.1 ∉ w.mergesetNonDaa := by
      intro e he hmem
      have hrecent := of_mem_filter (hfst ▸ mem_map_of_mem he)
      rw [hset, mem_toFinset, mem_filter, hrecent] at hmem
      exact absurd hmem.2 (by simp)
    have hcount : indexes.length = d.mergesetSize - w.mergesetNonDaa.card := by
      have hlength := congrArg length hfst
      rw [length_map, (hperm.filter _).length_eq] at hlength
      have hsplit := length_eq_length_filter_add (l := d.unorderedMergeset) (W.isRecent d)
      rw [length_unorderedMergeset] at hsplit
      rw [hset, toFinset_card_of_nodup ((nodup_unorderedMergeset hm).filter _)]
      omega
    obtain ⟨-, -, -, hdaa⟩ := of_blockDaaWindow hw hscore
    refine ⟨score, indexes, hscore, hindexes, by omega, ?_, hnone⟩
    rw [filter_eq_self.mpr fun e he => decide_eq_true (hnone e he), hsnd, hcount, hdaa,
      Nat.add_sub_cancel_left]

end

/-- A child of genesis: genesis does not count, and there is nothing else to merge. -/
theorem indexesExact_of_genesis (hgenesis : d.selectedParent = W.stores.genesisHash) :
    W.IndexesExact d w ∧ W.WithinCap d := by
  have hempty := hm.genesis hgenesis
  obtain ⟨nonDaa, hbuild, hcapped, hdaa⟩ := of_blockDaaWindow hw hscore
  obtain rfl : nonDaa = {W.stores.genesisHash} := by
    have hsize' : W.windowSize .difficultyWindow ≠ 0 := hsize
    rw [buildBlockWindow, if_neg hsize', if_pos hgenesis] at hbuild
    exact (Prod.mk.inj (Except.ok.inj (Option.some.inj hbuild))).2.symm
  have hset : w.mergesetNonDaa = {W.stores.genesisHash} := by
    ext x
    rw [mem_applyParallelBlockCap hm hscore hcapped, hempty]
    refine ⟨fun h => h.resolve_right ?_, Or.inl⟩
    rintro ⟨-, p, hx⟩
    exact absurd (mem_of_mem_surplus hx) not_mem_nil
  have hone : d.mergesetSize = 1 := by
    rw [← length_unorderedMergeset, unorderedMergeset_eq hm, hempty, length_singleton]
  rw [hset, hone, Finset.card_singleton, Nat.add_zero] at hdaa
  refine ⟨⟨score, [], hscore, by rw [daaIndexes, if_pos (.inl hgenesis)], hdaa.ge, ?_, nofun⟩, ?_⟩
  · rw [hdaa, Nat.sub_self]
    rfl
  · intro score' _ _ p
    rw [hempty]
    exact Nat.zero_le _

end

omit hw hscore in
/-- Without a difficulty window the selected parent is too old: the threshold is the blue score of
the block itself. -/
theorem isRecent_selectedParent_of_size (hsize : W.difficultyWindowSize = 0) :
    W.isRecent d d.selectedParent = false := by
  obtain ⟨parent, hparent⟩ := hm.selectedParent_stored
  rw [isRecent_eq_false_iff, blueScore, hparent, lowestDaaBlueScore, difficultyFullWindowSize,
    hsize, Nat.zero_mul, Nat.max_zero]
  exact hm.blueScore_lt hparent

/-- Without a difficulty window only the cap takes out blocks. -/
theorem mergesetNonDaa_subset_of_size (hsize : W.difficultyWindowSize = 0) :
    w.mergesetNonDaa ⊆ d.unorderedMergesetWithoutSelectedParent.toFinset := by
  obtain ⟨nonDaa, hbuild, hcapped, -⟩ := of_blockDaaWindow hw hscore
  obtain rfl : nonDaa = ∅ := by
    have hsize' : W.windowSize .difficultyWindow = 0 := hsize
    rw [buildBlockWindow, if_pos hsize'] at hbuild
    exact (Prod.mk.inj (Except.ok.inj (Option.some.inj hbuild))).2.symm
  intro x hx
  obtain hx | ⟨-, p, hx⟩ := (mem_applyParallelBlockCap hm hscore hcapped).mp hx
  · exact absurd hx (Finset.notMem_empty x)
  · exact mem_toFinset.mpr (mem_of_mem_filter (mem_of_mem_surplus hx))

omit hw in
/-- Without a difficulty window the selected parent has no index. -/
theorem mem_of_mem_daaIndexes_of_size (hsize : W.difficultyWindowSize = 0)
    {indexes : List (Hash × ℕ)} (hindexes : W.daaIndexes d = some indexes) :
    (indexes.map Prod.fst).Nodup ∧
      ∀ e ∈ indexes, e.1 ∈ d.unorderedMergesetWithoutSelectedParent := by
  by_cases hgenesis : d.selectedParent = W.stores.genesisHash
  · rw [daaIndexes, if_pos (.inl hgenesis)] at hindexes
    cases hindexes
    exact ⟨nodup_nil, nofun⟩
  · obtain ⟨blocks, indexes', hindexes', hperm, hfst, -⟩ := daaIndexes_eq hm hgenesis hscore
    obtain rfl := mem_unique hindexes hindexes'
    refine ⟨hfst ▸ (hperm.nodup_iff.mpr (nodup_unorderedMergeset hm)).filter _, fun e he => ?_⟩
    obtain ⟨hblock, hrecent⟩ := mem_filter.mp (hfst ▸ mem_map_of_mem he)
    have hmem := hperm.mem_iff.mp hblock
    rw [unorderedMergeset_eq hm] at hmem
    refine (mem_cons.mp hmem).resolve_left fun heq => ?_
    rw [heq, isRecent_selectedParent_of_size hm hsize] at hrecent
    cases hrecent

/-- Without a difficulty window the selected parent counts and has no index. -/
theorem not_indexesExact_of_size (hsize : W.difficultyWindowSize = 0) : ¬ W.IndexesExact d w := by
  rintro ⟨score', indexes, hscore', hindexes, -, hrange, hnone⟩
  obtain rfl := mem_unique hscore hscore'
  rw [filter_eq_self.mpr fun e he => decide_eq_true (hnone e he)] at hrange
  obtain ⟨hnodup, hmem⟩ := mem_of_mem_daaIndexes_of_size hm hscore hsize hindexes
  have hsub := mergesetNonDaa_subset_of_size hm hw hscore hsize
  have hcard : (indexes.map Prod.fst).length
      ≤ d.unorderedMergesetWithoutSelectedParent.length - w.mergesetNonDaa.card := by
    rw [← toFinset_card_of_nodup hnodup, ← toFinset_card_of_nodup hm.nodup,
      ← Finset.card_sdiff_of_subset hsub]
    refine Finset.card_le_card fun x hx => ?_
    obtain ⟨e, he, rfl⟩ := mem_map.mp (mem_toFinset.mp hx)
    exact Finset.mem_sdiff.mpr ⟨mem_toFinset.mpr (hmem e he), hnone e he⟩
  have hsizes : d.mergesetSize = d.unorderedMergesetWithoutSelectedParent.length + 1 := by
    rw [← length_unorderedMergeset, unorderedMergeset_eq hm, length_cons]
  have hle := Finset.card_le_card hsub
  obtain ⟨-, -, -, hdaa⟩ := of_blockDaaWindow hw hscore
  have hlength := congrArg length hrange
  rw [length_map, length_range'] at hlength
  rw [length_map] at hcard
  rw [toFinset_card_of_nodup hm.nodup] at hle
  omega

omit hscore in
/-- **The indexes of a mergeset** fit the scores exactly if there is a difficulty window and the
mergeset is within the cap. -/
theorem indexesExact_iff :
    W.IndexesExact d w ↔ 0 < W.difficultyWindowSize ∧ W.WithinCap d := by
  obtain ⟨score, hscore⟩ := exists_daaScore hm
  by_cases hsize : W.difficultyWindowSize = 0
  · exact iff_of_false (not_indexesExact_of_size hm hw hscore hsize) fun h => h.1.ne' hsize
  · rw [and_iff_right (Nat.pos_of_ne_zero hsize)]
    by_cases hgenesis : d.selectedParent = W.stores.genesisHash
    · obtain ⟨hexact, hcap⟩ := indexesExact_of_genesis hm hw hscore hsize hgenesis
      exact iff_of_true hexact hcap
    · exact indexesExact_iff_withinCap hm hw hscore hsize hgenesis

end Validated

/-! ### Chains -/

omit hm

/-- Exactness of indexes does not depend on the caches. -/
theorem indexesExact_withCaches {difficulty pastMedianTime : OrdMap Hash BlockWindowHeap} :
    (W.withCaches difficulty pastMedianTime).IndexesExact d w ↔ W.IndexesExact d w := by
  simp only [IndexesExact, daaIndexes, indexedMergeset_withCaches]
  rfl

/-- A selected chain down to genesis, highest block first, every block of which has the DAA score
that was computed for it, whatever was cached then. -/
inductive ValidatedChain (W : SampledWindowManager) : List Hash → Prop where
  | genesis : ValidatedChain W [W.stores.genesisHash]
  | next {h sp : Hash} {rest : List Hash} {d : GhostdagData} {w : DaaWindow}
      {difficulty pastMedianTime : OrdMap Hash BlockWindowHeap}
      (hchain : ValidatedChain W (sp :: rest)) (hne : h ≠ origin)
      (hd : W.stores.ghostdagStore.get? h = some d) (hsp : d.selectedParent = sp)
      (hw : (W.withCaches difficulty pastMedianTime).blockDaaWindow d = some (.ok w))
      (hscore : W.daaScore h = some w.daaScore) : ValidatedChain W (h :: sp :: rest)

/-- A block gets an index in the mergeset of another one. -/
def IndexedIn (W : SampledWindowManager) (h x : Hash) (index : ℕ) : Prop :=
  ∃ d indexes, W.stores.ghostdagStore.get? h = some d ∧ W.daaIndexes d = some indexes ∧
    (x, index) ∈ indexes

/-- A block is sampled in the mergeset of another one, for a multiple of the sample rate. -/
def SampledFor (W : SampledWindowManager) (t : WindowType) (h x : Hash) (multiple : ℕ) : Prop :=
  W.IndexedIn h x multiple ∧ W.sampleRate t ∣ multiple

/-- Exact indexes lie between the scores, and each belongs to one block. -/
theorem IndexesExact.bounds {h : Hash} (hexact : W.IndexesExact d w)
    (hd : W.stores.ghostdagStore.get? h = some d)
    (hscore : W.daaScore d.selectedParent = some score) :
    score ≤ w.daaScore ∧
      (∀ {x index}, W.IndexedIn h x index → score < index ∧ index ≤ w.daaScore) ∧
      ∀ {x y index}, W.IndexedIn h x index → W.IndexedIn h y index → x = y := by
  obtain ⟨score', indexes, hscore', hindexes, hle, hrange, hnone⟩ := hexact
  obtain rfl := mem_unique hscore hscore'
  rw [filter_eq_self.mpr fun e he => decide_eq_true (hnone e he)] at hrange
  have hindexed : ∀ {x index}, W.IndexedIn h x index → (x, index) ∈ indexes := by
    rintro x index ⟨d', indexes', hd', hindexes', hmem⟩
    obtain rfl := mem_unique hd hd'
    exact mem_unique hindexes' hindexes ▸ hmem
  refine ⟨hle, fun {x index} hx => ?_, fun hx hy => ?_⟩
  · have hmem : index ∈ range' (score + 1) (w.daaScore - score) :=
      hrange ▸ mem_map_of_mem (hindexed hx)
    rw [mem_range'_1] at hmem
    omega
  · have hnodup : (indexes.map Prod.snd).Nodup := hrange ▸ nodup_range'
    exact congrArg Prod.fst (inj_on_of_nodup_map hnodup (hindexed hx) (hindexed hy) rfl)

/-- Along a chain within the cap the indexes increase, so none is used twice. -/
theorem ValidatedChain.indexes {rank : Hash → ℕ} (hO : W.stores.Outlined D rank)
    (hS : W.stores.Stamped)
    (hgenesisScore : ∃ score, W.daaScore W.stores.genesisHash = some score)
    {chain : List Hash} (hchain : W.ValidatedChain chain)
    (hcap : ∀ h ∈ chain, ∀ d, W.stores.ghostdagStore.get? h = some d →
      h ≠ W.stores.genesisHash → 0 < W.difficultyWindowSize ∧ W.WithinCap d) :
    (∀ head, chain.head? = some head → head ≠ origin ∧ ∃ score, W.daaScore head = some score ∧
      ∀ h ∈ chain, ∀ x index, W.IndexedIn h x index → index ≤ score) ∧
    ∀ h ∈ chain, ∀ h' ∈ chain, ∀ x y index, W.IndexedIn h x index → W.IndexedIn h' y index →
      h = h' ∧ x = y := by
  induction hchain with
  | genesis =>
    obtain ⟨score, hscore⟩ := hgenesisScore
    -- The mergeset of genesis is not sampled.
    have hnone : ∀ h ∈ [W.stores.genesisHash], ∀ x index, ¬ W.IndexedIn h x index := by
      rintro h hh x index ⟨d, indexes, hd, hindexes, hmem⟩
      obtain rfl := mem_singleton.mp hh
      obtain rfl := mem_unique hO.genesisData hd
      rw [daaIndexes, if_pos (.inr rfl)] at hindexes
      cases hindexes
      cases hmem
    refine ⟨fun head hhead => ?_, fun h hh _ _ x _ index hidx => absurd hidx (hnone h hh x index)⟩
    cases hhead
    exact ⟨W.stores.genesis_ne, score, hscore, fun h hh x index hidx =>
      absurd hidx (hnone h hh x index)⟩
  | @next h sp rest d w difficulty pastMedianTime hchain hne hd hsp hw hscore ih =>
    subst hsp
    obtain ⟨htop, hunique⟩ := ih fun h hh => hcap h (mem_cons_of_mem _ hh)
    obtain ⟨hspne, score, hspScore, hbelow⟩ := htop _ rfl
    have hgenesis := hO.ne_genesis hd hspne
    have hexact : W.IndexesExact d w :=
      indexesExact_withCaches.mp ((indexesExact_iff (W := W.withCaches difficulty pastMedianTime)
        (hO.merges hS hd hne hspne) hw).mpr (hcap h mem_cons_self d hd hgenesis))
    obtain ⟨hle, hbounds, hone⟩ := hexact.bounds hd hspScore
    refine ⟨fun head hhead => ?_, fun h₁ hh₁ h₂ hh₂ x y index hidx₁ hidx₂ => ?_⟩
    · cases hhead
      refine ⟨hne, w.daaScore, hscore, fun h' hh' x index hidx => ?_⟩
      obtain rfl | hh' := mem_cons.mp hh'
      · exact (hbounds hidx).2
      · exact (hbelow h' hh' x index hidx).trans hle
    · obtain rfl | htail₁ := mem_cons.mp hh₁
      · obtain rfl | htail₂ := mem_cons.mp hh₂
        · exact ⟨rfl, hone hidx₁ hidx₂⟩
        · exact absurd (hbelow h₂ htail₂ y index hidx₂) (hbounds hidx₁).1.not_ge
      · obtain rfl | htail₂ := mem_cons.mp hh₂
        · exact absurd (hbelow h₁ htail₁ x index hidx₁) (hbounds hidx₂).1.not_ge
        · exact hunique h₁ htail₁ h₂ htail₂ x y index hidx₁ hidx₂

/-- **Each DAA index is sampled at most once, within the cap.** In every block DAG, the indexes of
the mergeset of a validated block are exactly those between the score of its selected parent and its
own, and blocks that do not count have none, if and only if there is a difficulty window and, once
the cap is active, no more recent mergeset blocks share a selected parent than it allows. Along
every validated selected chain whose blocks meet that condition, no two blocks are sampled for the
same multiple of a sample rate. -/
theorem daa_indexes_exact_iff (W : SampledWindowManager) (hM : W.stores.IsBlockDag) :
    (∀ h d w difficulty pastMedianTime, W.stores.ghostdagStore.get? h = some d → h ≠ origin →
      h ≠ W.stores.genesisHash →
      (W.withCaches difficulty pastMedianTime).blockDaaWindow d = some (.ok w) →
      (W.IndexesExact d w ↔ 0 < W.difficultyWindowSize ∧ W.WithinCap d)) ∧
    ∀ chain, W.ValidatedChain chain →
      (∀ h ∈ chain, ∀ d, W.stores.ghostdagStore.get? h = some d → h ≠ W.stores.genesisHash →
        0 < W.difficultyWindowSize ∧ W.WithinCap d) →
      ∀ t, ∀ h ∈ chain, ∀ h' ∈ chain, ∀ x y multiple, W.SampledFor t h x multiple →
        W.SampledFor t h' y multiple → h = h' ∧ x = y := by
  obtain ⟨D, rank, hO, hS⟩ := hM.outlined
  refine ⟨fun h d w difficulty pastMedianTime hd hne hgenesis hw => ?_,
    fun chain hchain hcap t h hh h' hh' x y multiple hx hy => ?_⟩
  · obtain ⟨-, -, hsp, -⟩ := hO.exists_selectedParent hd hne hgenesis
    exact indexesExact_withCaches.symm.trans (indexesExact_iff
      (W := W.withCaches difficulty pastMedianTime) (hO.merges hS hd hne hsp) hw)
  · obtain ⟨header, hheader⟩ := hS.header ⟨_, hO.genesis⟩ W.stores.genesis_ne
    have hscore : ∃ score, W.daaScore W.stores.genesisHash = some score :=
      ⟨header.daaScore, by rw [daaScore, hheader, map_some]⟩
    exact (hchain.indexes hO hS hscore hcap).2 h hh h' hh' x y multiple hx.1 hy.1

/-! ### Sample chains -/

/-- Whether a chain is validated with what is cached. -/
def checkChain (W : SampledWindowManager) : List Hash → Bool
  | [] => false
  | [h] => h == W.stores.genesisHash
  | h :: sp :: rest =>
    h != origin &&
    (W.stores.ghostdagStore.get? h).any (fun d => d.selectedParent == sp &&
      match W.blockDaaWindow d with
      | some (.ok w) => W.daaScore h == some w.daaScore
      | _ => false) &&
    checkChain W (sp :: rest)

theorem validatedChain_of_check {chain : List Hash} (h : W.checkChain chain = true) :
    W.ValidatedChain chain := by
  induction chain with
  | nil => exact absurd h (by simp [checkChain])
  | cons b rest ih =>
    cases rest with
    | nil =>
      rw [checkChain, beq_iff_eq] at h
      exact h ▸ .genesis
    | cons sp rest =>
      rw [checkChain, Bool.and_eq_true, Bool.and_eq_true, bne_iff_ne, Option.any_eq_true] at h
      obtain ⟨⟨hne, d, hd, hvalid⟩, hrest⟩ := h
      rw [Bool.and_eq_true, beq_iff_eq] at hvalid
      obtain ⟨hsp, hvalid⟩ := hvalid
      split at hvalid
      · next w hw =>
        have hw' : (W.withCaches W.blockWindowCacheForDifficulty
          W.blockWindowCacheForPastMedianTime).blockDaaWindow d = some (.ok w) := hw
        exact .next (ih hrest) hne hd hsp hw' (beq_iff_eq.mp hvalid)
      · cases hvalid

instance (h : Hash) (index : ℕ) : Decidable (W.IndexedIn h x index) :=
  decidable_of_iff (∃ d ∈ W.stores.ghostdagStore.get? h, ∃ indexes ∈ W.daaIndexes d,
    (x, index) ∈ indexes) (by simp only [IndexedIn, exists_and_left, Option.mem_def])

/-- A block with a DAA score and parents. -/
def scoredBlock (hash : Hash) (daaScore : ℕ) (parents : List Hash) : GhostdagManager.NewBlock :=
  ⟨hash, { target := 2 ^ 250, daaScore }, parents⟩

/-- Windows of twenty blocks, every second one sampled, with the cap active. -/
def sampleWindows (stores : GhostdagManager) : SampledWindowManager where
  stores
  difficultyWindowSize := 20
  difficultySampleRate := 2
  pastMedianTimeWindowSize := 20
  pastMedianTimeSampleRate := 2
  h5Activation := 0

/-- Stores with genesis alone, in which no merged block is blue. -/
def chainGenesis : GhostdagManager :=
  GhostdagManager.sampleGenesis 0 (by decide)

/-- Two blocks on genesis, and a block that merges them. -/
def mergedPair : List GhostdagManager.NewBlock :=
  [scoredBlock 2 0 [1], scoredBlock 3 0 [1], scoredBlock 4 2 [2, 3]]

theorem daa_indexes_exact_merged_pair :
    ∃ M d w, chainGenesis.addBlocks mergedPair = some M ∧
      M.ghostdagStore.get? 4 = some d ∧
      (sampleWindows M).blockDaaWindow d = some (.ok w) ∧ (sampleWindows M).IndexesExact d w ∧
      (sampleWindows M).ValidatedChain [4, 3, 1] ∧
      ∀ x y, (sampleWindows M).SampledFor .difficultyWindow 4 x 2 →
        (sampleWindows M).SampledFor .difficultyWindow 4 y 2 → x = y := by
  have hsome : ∃ M ∈ chainGenesis.addBlocks mergedPair,
      (sampleWindows M).checkChain [4, 3, 1] = true ∧ M.genesisHash = 1 ∧
      ([4, 3].all fun h => decide (∃ d ∈ M.ghostdagStore.get? h,
        d.unorderedMergesetWithoutSelectedParent.length ≤ parallelBlockCapN)) = true ∧
      ∃ d ∈ M.ghostdagStore.get? 4,
        ∃ w ∈ ((sampleWindows M).blockDaaWindow d).bind Except.toOption, w.daaScore = 2 := by
    decide +kernel
  obtain ⟨M, hrun, hchain, hgenesis, hshort, d, hd, w, hw, -⟩ := hsome
  have hvalidated := validatedChain_of_check hchain
  have hboth := daa_indexes_exact_iff (sampleWindows M)
    (GhostdagManager.grewBy_of_check hrun (by decide +kernel))
  have hcap : ∀ h ∈ [(4 : Hash), 3, 1], ∀ d, M.ghostdagStore.get? h = some d →
      h ≠ M.genesisHash → 0 < (sampleWindows M).difficultyWindowSize ∧
        (sampleWindows M).WithinCap d := by
    intro h hh d hd hne
    have hmem : h ∈ [(4 : Hash), 3] := by
      rw [hgenesis] at hne
      simpa [hne] using hh
    obtain ⟨d', hd', hle⟩ := of_decide_eq_true (all_eq_true.mp hshort h hmem)
    obtain rfl := mem_unique hd hd'
    exact ⟨Nat.succ_pos 19, fun _ _ _ _ => (length_filter_le _ _).trans hle⟩
  have hne : (4 : Hash) ≠ M.genesisHash := by
    rw [hgenesis]
    decide
  have hw := eq_some_ok_of_mem hw
  have hexact := (hboth.1 4 d w empty empty hd (by decide +kernel) hne hw).mpr
    (hcap 4 mem_cons_self d hd hne)
  exact ⟨M, d, w, hrun, hd, hw, hexact, hvalidated, fun x y hx hy =>
    (hboth.2 _ hvalidated hcap _ 4 mem_cons_self 4 mem_cons_self x y 2 hx hy).2⟩

/-- A chain of three blocks, twenty-one blocks on genesis beside it, two blocks that merge those,
and a block that merges everything, with a child. -/
def crowd : List GhostdagManager.NewBlock :=
  [scoredBlock 2 0 [1], scoredBlock 3 1 [2], scoredBlock 4 2 [3]] ++
  ([5, 6, 7, 8, 9, 10, 11, 12, 13, 14, 15, 16, 17, 18, 19, 20, 21, 22, 23, 24, 25].map fun h =>
    scoredBlock h 0 [1]) ++
  [scoredBlock 26 11 [5, 6, 7, 8, 9, 10, 11, 12, 13, 14, 15],
    scoredBlock 27 10 [16, 17, 18, 19, 20, 21, 22, 23, 24, 25],
    scoredBlock 28 25 [4, 26, 27], scoredBlock 29 26 [28]]

/-- One of the twenty-one blocks is taken out by the cap and has an index all the same. So the
indexes run one past the score of the block that merges them, and that block gets the last of them
again: two blocks are sampled for the multiple twenty-six, and both are in the next difficulty
window. -/
theorem capped_block_shifts_indexes :
    ∃ M, chainGenesis.addBlocks crowd = some M ∧ M.IsBlockDag ∧
      (sampleWindows M).ValidatedChain [29, 28, 4, 3, 2, 1] ∧
      (∃ d w, M.ghostdagStore.get? 28 = some d ∧
        (sampleWindows M).blockDaaWindow d = some (.ok w) ∧ w.daaScore = 25 ∧
        25 ∈ w.mergesetNonDaa ∧ (sampleWindows M).IndexedIn 28 25 6) ∧
      (sampleWindows M).SampledFor .difficultyWindow 28 5 26 ∧
      (sampleWindows M).SampledFor .difficultyWindow 29 28 26 ∧
      ∃ d w, M.ghostdagStore.get? 29 = some d ∧
        (sampleWindows M).blockDaaWindow d = some (.ok w) ∧
        5 ∈ w.window.elems.map SortableBlock.hash ∧
        28 ∈ w.window.elems.map SortableBlock.hash := by
  have hsome : ∃ M ∈ chainGenesis.addBlocks crowd,
      (sampleWindows M).checkChain [29, 28, 4, 3, 2, 1] = true ∧
      ((sampleWindows M).IndexedIn 28 25 6 ∧ (sampleWindows M).IndexedIn 28 5 26 ∧
        (sampleWindows M).IndexedIn 29 28 26) ∧
      (∃ d ∈ M.ghostdagStore.get? 28,
        ∃ w ∈ ((sampleWindows M).blockDaaWindow d).bind Except.toOption,
          w.daaScore = 25 ∧ 25 ∈ w.mergesetNonDaa) ∧
      ∃ d ∈ M.ghostdagStore.get? 29,
        ∃ w ∈ ((sampleWindows M).blockDaaWindow d).bind Except.toOption,
          5 ∈ w.window.elems.map SortableBlock.hash ∧
          28 ∈ w.window.elems.map SortableBlock.hash := by
    decide +kernel
  obtain ⟨M, hrun, hchain, ⟨hcapped, hlast, hagain⟩, ⟨d, hd, w, hw, hscore, hnonDaa⟩,
    d', hd', w', hw', hwindow⟩ := hsome
  exact ⟨M, hrun, GhostdagManager.grewBy_of_check hrun (by decide +kernel),
    validatedChain_of_check hchain, ⟨d, w, hd, eq_some_ok_of_mem hw, hscore, hnonDaa, hcapped⟩,
    ⟨hlast, 13, rfl⟩, ⟨hagain, 13, rfl⟩, d', w', hd', eq_some_ok_of_mem hw', hwindow⟩

end SampledWindowManager

end Window

end KeryxNode
