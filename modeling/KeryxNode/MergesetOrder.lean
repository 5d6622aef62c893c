import KeryxNode.BlockWindow
import KeryxNode.GhostdagRun

/-!
# Mergesets as Windows Read Them

What the construction of windows uses of a block DAG: the mergeset of a block is stored, without
repetition and outside the past of the selected parent, blues and reds in the order of blocks. Every
DAG that grows from genesis has these properties, whatever becomes of the blue work. As long as that
does not wrap around, the consensus order of a mergeset is topological.
-/

namespace KeryxNode

open Ghostdag List Option GhostdagData

variable {parent : GhostdagData}

namespace Window

section Merge

variable {α : Type*} [LinearOrder α]

/-- Two descending lists without a common element are merged into a descending list. -/
theorem mergeJoin_eq {l r : List α} (hl : l.Pairwise (· > ·)) (hr : r.Pairwise (· > ·))
    (hdisjoint : ∀ x ∈ l, x ∉ r) :
    ∃ m, mergeJoin l r = some m ∧ m.Perm (l ++ r) ∧ m.Pairwise (· > ·) := by
  induction l generalizing r with
  | nil => exact ⟨r, rfl, .rfl, hr⟩
  | cons a l ihl =>
    obtain ⟨ha, hl'⟩ := pairwise_cons.mp hl
    induction r with
    | nil =>
      rw [append_nil]
      exact ⟨a :: l, rfl, .rfl, hl⟩
    | cons b r ihr =>
      obtain ⟨hb, hr'⟩ := pairwise_cons.mp hr
      obtain hlt | heq | hlt := lt_trichotomy b a
      · obtain ⟨m, hm, hperm, hsorted⟩ := ihl hl' hr fun x hx =>
          hdisjoint x (mem_cons_of_mem a hx)
        refine ⟨a :: m, ?_, hperm.cons a, pairwise_cons.mpr ⟨fun x hx => ?_, hsorted⟩⟩
        · rw [mergeJoin, mergeInto, if_pos hlt, hm, map_some]
        · obtain hx | hx := mem_append.mp (hperm.mem_iff.mp hx)
          · exact ha x hx
          · obtain rfl | hx := mem_cons.mp hx
            · exact hlt
            · exact (hb x hx).trans hlt
      · exact absurd (heq ▸ mem_cons_self) (hdisjoint a mem_cons_self)
      · obtain ⟨m, hm, hperm, hsorted⟩ := ihr hr' fun x hx hmem =>
          hdisjoint x hx (mem_cons_of_mem b hmem)
        refine ⟨b :: m, ?_, (hperm.cons b).trans perm_middle.symm,
          pairwise_cons.mpr ⟨fun x hx => ?_, hsorted⟩⟩
        · rw [mergeJoin] at hm
          rw [mergeJoin, mergeInto, if_neg hlt.asymm, if_pos hlt, hm, map_some]
        · obtain hx | hx := mem_append.mp (hperm.mem_iff.mp hx)
          · obtain rfl | hx := mem_cons.mp hx
            · exact hlt
            · exact (ha x hx).trans hlt
          · exact hb x hx

end Merge

end Window

namespace Ghostdag.GhostdagManager

open scoped Classical

variable {M : GhostdagManager} {rank : Hash → ℕ} {d : GhostdagData} {D : Dag Hash} {h x : Hash}
  {ps : List Hash}

/-! ### Mergesets -/

/-- A colouring whose mergeset is stored, in order, and outside the past of the selected parent. -/
structure Merges (M : GhostdagManager) (D : Dag Hash) (d : GhostdagData) : Prop where
  selectedParent_ne : d.selectedParent ≠ origin
  selectedParent_stored : ∃ data, M.ghostdagStore.get? d.selectedParent = some data
  selectedParent_header : ∃ header, M.headersStore.get? d.selectedParent = some header
  blueScore_lt : ∀ {parent}, M.ghostdagStore.get? d.selectedParent = some parent →
    parent.blueScore < d.blueScore
  head : d.mergesetBlues = d.selectedParent :: d.mergesetBlues.tail
  nodup : d.unorderedMergesetWithoutSelectedParent.Nodup
  stored : ∀ x ∈ d.unorderedMergesetWithoutSelectedParent,
    ∃ data, M.ghostdagStore.get? x = some data
  outside : ∀ x ∈ d.unorderedMergesetWithoutSelectedParent, ¬ D.Reaches x d.selectedParent
  blues : d.mergesetBlues.tail.Pairwise fun a b => M.key a < M.key b
  reds : d.mergesetReds.Pairwise fun a b => M.key a < M.key b
  genesis : d.selectedParent = M.genesisHash → d.unorderedMergesetWithoutSelectedParent = []

/-- Every block but the origin has a header, and a blue score above that of its selected parent. -/
structure Stamped (M : GhostdagManager) : Prop where
  header : ∀ {h}, M.Known h → h ≠ origin → ∃ header, M.headersStore.get? h = some header
  blueScore_lt : ∀ {h d parent}, M.ghostdagStore.get? h = some d → h ≠ origin →
    h ≠ M.genesisHash → M.ghostdagStore.get? d.selectedParent = some parent →
    parent.blueScore < d.blueScore

/-- Only genesis and the origin have the origin as selected parent. -/
theorem Grown.ne_genesis (hG : Grown M D rank) (hd : M.ghostdagStore.get? h = some d)
    (hsp : d.selectedParent ≠ Ghostdag.origin) : h ≠ M.genesisHash := by
  rintro rfl
  obtain rfl := mem_unique hG.genesisData hd
  exact hsp rfl

/-- The mergesets of a DAG that grew from genesis. -/
theorem Outlined.merges (hO : Outlined M D rank) (hS : Stamped M)
    (hd : M.ghostdagStore.get? h = some d) (hne : h ≠ Ghostdag.origin)
    (hsp : d.selectedParent ≠ Ghostdag.origin) : M.Merges D d := by
  have hgenesis := hO.ne_genesis hd hsp
  have hshape := hO.shape hd hne hgenesis
  have hsel := hO.selected hd hne hgenesis
  have hknown := hO.closed hsel.mem
  refine ⟨hsp, (hO.stored _).mp hknown, hS.header hknown hsp,
    fun hparent => hS.blueScore_lt hd hne hgenesis hparent, hshape.head, hshape.nodup,
    fun x hx => (hO.stored x).mp (hO.known_of_reaches ((hO.stored h).mpr ⟨d, hd⟩)
      ((hshape.merged x).mp hx).1.reaches),
    fun x hx => ((hshape.merged x).mp hx).2, hshape.blues, hshape.reds,
    fun heq => eq_nil_iff_forall_not_mem.mpr fun x hx => ?_⟩
  -- Genesis is in the past of every other parent, so it is the only one.
  obtain ⟨hpast, hout⟩ := (hshape.merged x).mp hx
  obtain ⟨p, hp, hxp⟩ := Dag.inPast_iff.mp hpast
  rw [hO.parents] at hp
  have hpne : p ≠ Ghostdag.origin := fun horigin => hsel.origin_notMem (horigin ▸ hp)
  obtain hpeq | hgp := Dag.reaches_iff_eq_or_inPast.mp (hO.genesis_reaches (hO.closed hp) hpne)
  · exact hout (heq.trans hpeq ▸ hxp)
  · exact hshape.antichain _ (heq ▸ hsel.mem) p hp hgp

theorem Merges.mapM_sortableBlock (hm : M.Merges D d)
    (hps : ps ⊆ d.unorderedMergesetWithoutSelectedParent) :
    ps.mapM M.sortableBlock = some (ps.map M.key) := by
  refine mapM_eq_some_map fun x hx => ?_
  obtain ⟨data, hdata⟩ := hm.stored x (hps hx)
  exact sortableBlock_of_get? hdata

theorem Merges.keys_disjoint (hm : M.Merges D d) {blues reds : List Hash}
    (hblues : blues ⊆ d.mergesetBlues.tail) (hreds : reds ⊆ d.mergesetReds) :
    ∀ x ∈ blues.map M.key, x ∉ reds.map M.key := by
  intro x hx hx'
  obtain ⟨a, ha, rfl⟩ := mem_map.mp hx
  obtain ⟨b, hb, heq⟩ := mem_map.mp hx'
  obtain rfl := key_injective heq
  exact (nodup_append.mp hm.nodup).2.2 b (hblues ha) b (hreds hb) rfl

/-- The mergeset without the selected parent, in descending order. -/
theorem Merges.descending_eq (hm : M.Merges D d) :
    ∃ blocks, d.descendingMergesetWithoutSelectedParent M = some blocks ∧
      blocks.Perm (d.unorderedMergesetWithoutSelectedParent.map M.key) ∧
      blocks.Pairwise (· > ·) := by
  have hsorted : ∀ {l : List Hash}, (l.Pairwise fun a b => M.key a < M.key b) →
      (l.reverse.map M.key).Pairwise (· > ·) := by
    intro l hl
    rw [pairwise_map]
    exact pairwise_reverse.mpr hl
  obtain ⟨blocks, hblocks, hperm, hdesc⟩ :=
    Window.mergeJoin_eq (hsorted hm.blues) (hsorted hm.reds)
      (hm.keys_disjoint (reverse_perm _).subset (reverse_perm _).subset)
  refine ⟨blocks, ?_, hperm.trans ?_, hdesc⟩
  · rw [descendingMergesetWithoutSelectedParent,
      hm.mapM_sortableBlock fun x hx => mem_append_left _ (mem_reverse.mp hx), some_bind,
      hm.mapM_sortableBlock fun x hx => mem_append_right _ (mem_reverse.mp hx), some_bind, hblocks]
  · rw [GhostdagData.unorderedMergesetWithoutSelectedParent, map_append]
    exact ((reverse_perm _).map _).append ((reverse_perm _).map _)

/-- The mergeset without the selected parent, in ascending order. -/
theorem Merges.ascending_eq (hm : M.Merges D d) :
    ∃ blocks, d.ascendingMergesetWithoutSelectedParent M = some blocks ∧
      blocks.Perm (d.unorderedMergesetWithoutSelectedParent.map M.key) ∧
      blocks.Pairwise (· < ·) := by
  obtain ⟨blocks, hblocks, hperm, hasc⟩ :=
    Window.mergeJoin_eq (α := Window.SortableBlockᵒᵈ) (pairwise_map.mpr hm.blues)
      (pairwise_map.mpr hm.reds) (hm.keys_disjoint (Subset.refl _) (Subset.refl _))
  refine ⟨blocks, ?_, hperm.trans (.of_eq map_append.symm), hasc⟩
  rw [ascendingMergesetWithoutSelectedParent,
    hm.mapM_sortableBlock (subset_append_left _ _), hm.mapM_sortableBlock (subset_append_right _ _)]
  exact hblocks

/-! ### Runs -/

theorem stamped_init {genesisHash : Hash} {genesis_ne : genesisHash ≠ origin}
    {genesis : Header} {k : ℕ} {k_lt : k + 1 < 2 ^ 16} {level : ℕ} {levelWork : ℕ → ℕ} :
    Stamped (init genesisHash genesis_ne genesis k k_lt level levelWork) := by
  refine ⟨fun {h} hknown hne => ?_, fun {h d parent} hd hne hgenesis _ => ?_⟩
  · obtain ⟨ps, hps⟩ := hknown
    rw [relations_init rfl] at hps
    split at hps
    · next heq =>
      refine ⟨genesis, ?_⟩
      rw [init, OrdMap.get?_insert, if_pos heq]
    · cases hps
  · exact absurd (not_stored_init rfl hd hne) hgenesis

/-- A step of a run keeps headers and scores. -/
theorem Stamped.addBlock (hS : Stamped M) (hG : Grown M D rank) {b : NewBlock}
    {M' : GhostdagManager} (hadd : M.addBlock b = some M') (hun : M.UnrelatedParents b.parents) :
    Stamped M' := by
  obtain ⟨data, hdata, rfl, hnew, hparents, -⟩ := hG.of_addBlock hadd hun
  obtain ⟨sp, mergeset, hdrawn⟩ := hG.drawn hparents hdata
  have hstored : ∀ {x dx}, M.ghostdagStore.get? x = some dx → x ≠ b.hash := fun hx =>
    ne_of_known hnew ((hG.stored _).mpr ⟨_, hx⟩)
  refine ⟨fun {h} hknown hne => ?_, fun {h d parent} hd hne hgenesis hparent => ?_⟩
  · rw [insertBlock, OrdMap.get?_insert]
    split
    · exact ⟨b.header, rfl⟩
    · next hb => exact hS.header ((known_insertBlock.mp hknown).resolve_left hb) hne
  · rw [get?_insertBlock] at hd hparent
    split at hd
    · cases hd
      obtain rfl := hdrawn.divided.selectedParent
      rw [if_neg (ne_of_known hnew (hparents.known _ hdrawn.mem))] at hparent
      exact hdrawn.score hparent
    · obtain ⟨parent', hparent', -⟩ := hG.exists_selectedParent hd hne hgenesis
      rw [if_neg (hstored hparent')] at hparent
      exact hS.blueScore_lt hd hne hgenesis hparent

/-- **A block DAG** has its mergesets, and its blocks have headers and scores. -/
theorem IsBlockDag.outlined (hM : M.IsBlockDag) :
    ∃ D rank, Outlined M D rank ∧ Stamped M := by
  refine hM.invariant (I := fun M => ∃ D rank, Outlined M D rank ∧ Stamped M) ?_ ?_
  · intro _ _ _ _ _ _ _
    obtain ⟨D, rank, hO⟩ := outlined_init rfl
    exact ⟨D, rank, hO, stamped_init⟩
  · rintro N N' b ⟨D, rank, hO, hS⟩ hun hadd
    obtain ⟨D', rank', hO'⟩ := hO.addBlock hadd hun
    exact ⟨D', rank', hO', hS.addBlock hO.toGrown hadd hun⟩

/-! ### The consensus order -/

/-- The consensus order lists the mergeset, and no block reaches one that comes before it. -/
theorem Merges.consensusOrdered_eq (hm : M.Merges D d) (hG : Grown M D rank) (hR : M.Rising) :
    ∃ ordered, d.consensusOrderedMergeset M = some ordered ∧
      ordered.Perm d.unorderedMergeset ∧ ordered.Pairwise fun a b => ¬ D.Reaches b a := by
  obtain ⟨blocks, hblocks, hperm, hasc⟩ := hm.ascending_eq
  obtain ⟨data, hdata⟩ := hm.selectedParent_stored
  have hmem : ∀ b ∈ blocks, ∃ x ∈ d.unorderedMergesetWithoutSelectedParent, M.key x = b :=
    fun b hb => mem_map.mp (hperm.mem_iff.mp hb)
  refine ⟨d.selectedParent :: blocks.map Window.SortableBlock.hash, ?_, ?_,
    pairwise_cons.mpr ⟨fun b hb => ?_, ?_⟩⟩
  · rw [consensusOrderedMergeset, hblocks]
    rfl
  · rw [unorderedMergeset, hm.head]
    refine ((hperm.map _).trans (.of_eq ?_)).cons _
    rw [List.map_map]
    exact map_id _
  · obtain ⟨_, hb', rfl⟩ := mem_map.mp hb
    obtain ⟨x, hx, rfl⟩ := hmem _ hb'
    exact hm.outside x hx
  · refine pairwise_map.mpr (hasc.imp_of_mem fun {a b} ha hb hlt hreach => ?_)
    obtain ⟨x, -, rfl⟩ := hmem a ha
    obtain ⟨y, hy, rfl⟩ := hmem b hb
    have hyne : y ≠ origin := fun heq =>
      hm.outside y hy (heq ▸ hG.origin_reaches ((hG.stored _).mpr ⟨data, hdata⟩))
    exact hlt.not_ge (hG.key_le_of_reaches hR hreach hyne)

/-- **Mergesets and their order.** In every block DAG with accumulated work below `2 ^ 192` the
mergeset of a block is what it has in its past and its selected parent has not, each block once, and
none of it is in the future of the selected parent. The blue work grows along every parent edge, the
blue score along the selected one, and the consensus order lists the mergeset so that every block
comes after those it reaches. -/
theorem mergesets_sound (hM : M.IsBoundedDag) (hd : M.ghostdagStore.get? h = some d)
    (hne : h ≠ Ghostdag.origin) (hgenesis : h ≠ M.genesisHash) :
    ∃ D : Dag Hash, D.parents = M.parents ∧
      (∀ x, x ∈ d.unorderedMergeset ↔ D.InPast x h ∧ ¬ D.InPast x d.selectedParent) ∧
      d.unorderedMergeset.Nodup ∧
      (∀ x ∈ d.unorderedMergeset, ¬ D.InPast d.selectedParent x) ∧
      (∀ p ∈ M.parents h, M.blueWork p < M.blueWork h) ∧
      (∀ parent, M.ghostdagStore.get? d.selectedParent = some parent →
        parent.blueScore < d.blueScore) ∧
      ∃ ordered, d.consensusOrderedMergeset M = some ordered ∧
        ordered.Perm d.unorderedMergeset ∧ ordered.Pairwise fun a b => ¬ D.Reaches b a := by
  obtain ⟨D, rank, hP⟩ := hM.painted
  obtain ⟨D', rank', hO, hS⟩ := hM.isBlockDag.outlined
  obtain rfl : D' = D := Dag.ext (hO.parents.trans hP.parents.symm)
  obtain ⟨-, -, hsp, -, hpast⟩ := hP.exists_selectedParent hd hne hgenesis
  have hshape := hO.shape hd hne hgenesis
  have hsel := hP.selected hd hne hgenesis
  have hm := hO.merges hS hd hne hsp
  rw [unorderedMergeset, hm.head, cons_append]
  refine ⟨D', hO.parents, fun x => ?_, nodup_cons.mpr ⟨fun hmem => hm.outside _ hmem (.refl _),
    hm.nodup⟩, fun x hx hfuture => ?_, fun p hp => hP.blueWork_lt_of_parent hP.rising hp ?_,
    fun _ hparent => hm.blueScore_lt hparent, ?_⟩
  · rw [mem_cons, hshape.merged, Dag.reaches_iff_eq_or_inPast, not_or]
    constructor
    · rintro (rfl | ⟨hx, -, hout⟩)
      · exact ⟨hpast, Dag.not_inPast_self _⟩
      · exact ⟨hx, hout⟩
    · rintro ⟨hx, hout⟩
      exact (eq_or_ne x d.selectedParent).imp_right fun hneq => ⟨hx, hneq, hout⟩
  · obtain rfl | hx := mem_cons.mp hx
    · exact Dag.not_inPast_self _ hfuture
    · -- Then the selected parent is in the past of another parent.
      obtain ⟨p, hp, hxp⟩ := Dag.inPast_iff.mp ((hshape.merged x).mp hx).1
      exact hshape.antichain _ hsel.mem p (hO.parents ▸ hp) (hfuture.trans_reaches hxp)
  · rintro rfl
    exact hsel.origin_notMem hp
  · have hordered := hm.consensusOrdered_eq hP.toGrown hP.rising
    rwa [unorderedMergeset, hm.head] at hordered

/-- The block that merges the fork takes the others in order after its selected parent. -/
theorem mergesets_sound_fork :
    ∃ M d, (sampleGenesis 1 (by decide)).addBlocks fork = some M ∧
      M.ghostdagStore.get? 5 = some d ∧ d.consensusOrderedMergeset M = some [4, 2, 3] ∧
      ∃ D : Dag Hash, D.parents = M.parents ∧
        ∀ x ∈ d.unorderedMergeset, ¬ D.InPast d.selectedParent x := by
  have hsome : ∃ M ∈ (sampleGenesis 1 (by decide)).addBlocks fork, M.genesisHash = 1 ∧
      ∃ d ∈ M.ghostdagStore.get? 5, d.consensusOrderedMergeset M = some [4, 2, 3] := by
    decide +kernel
  obtain ⟨M, hrun, hone, d, hd, hordered⟩ := hsome
  obtain ⟨D, hD, -, -, hfuture, -⟩ := mergesets_sound (isBoundedDag_fork hrun) hd
    (by decide +kernel) (hone ▸ by decide)
  exact ⟨M, d, hrun, hd, hordered, D, hD, hfuture⟩

/-- A redundant parent is merged although it is in the past of the selected parent, and after an
overflow a block has less blue work than its only parent. -/
theorem mergesets_fail :
    (∃ M d, (sampleGenesis 2 (by decide)).addBlocks redundantParent = some M ∧
      M.ghostdagStore.get? 3 = some d ∧ 1 ∈ d.unorderedMergeset ∧
      ∀ D : Dag Hash, D.parents = M.parents → D.InPast 1 d.selectedParent) ∧
    ∃ M, (genesisOf heavyHeader 2 (by decide)).addBlocks overflow = some M ∧ M.IsBlockDag ∧
      2 ∈ M.parents 3 ∧ M.blueWork 3 < M.blueWork 2 := by
  have hredundant : ∃ M ∈ (sampleGenesis 2 (by decide)).addBlocks redundantParent,
      M.parents 2 = [1] ∧
      ∃ d ∈ M.ghostdagStore.get? 3, 1 ∈ d.unorderedMergeset ∧ d.selectedParent = 2 := by
    decide +kernel
  have hoverflow : ∃ M ∈ (genesisOf heavyHeader 2 (by decide)).addBlocks overflow,
      2 ∈ M.parents 3 ∧ M.blueWork 3 < M.blueWork 2 := by
    decide +kernel
  constructor
  · obtain ⟨M, hrun, hparents, d, hd, hmem, hsp⟩ := hredundant
    refine ⟨M, d, hrun, hd, hmem, fun D hD => hsp ▸ .of_parent ?_⟩
    rw [hD, hparents]
    exact mem_singleton_self 1
  · obtain ⟨M, hrun, hparent, hlt⟩ := hoverflow
    exact ⟨M, hrun, grewBy_of_check hrun (by decide +kernel), hparent, hlt⟩

end Ghostdag.GhostdagManager

/-! ### Indexed mergesets -/

namespace Window.SampledWindowManager

variable {W : SampledWindowManager} {D : Dag Hash} {d : GhostdagData}

/-- Blocks with their DAA indexes: those that are too old have none, the others are numbered on in
their order. -/
structure Indexed (W : SampledWindowManager) (start threshold : ℕ) (blocks : List SortableBlock)
    (indexed : List (SortableBlock × Option ℕ)) : Prop where
  blocks : indexed.map Prod.fst = blocks
  tooOld : ∀ e ∈ indexed, e.2 = none ↔ (W.blueScore e.1.hash).getD 0 < threshold
  consecutive : indexed.filterMap Prod.snd
    = range' (start + 1) (indexed.filterMap Prod.snd).length

/-- The indexes that stored blocks are given. -/
theorem assignIndexes_eq (start threshold : ℕ) {blocks : List SortableBlock}
    (hstored : ∀ b ∈ blocks, ∃ score, W.blueScore b.hash = some score) (index : ℕ) :
    ∃ indexed, W.assignIndexes start threshold index blocks = some indexed ∧
      W.Indexed (start + index) threshold blocks indexed := by
  induction blocks generalizing index with
  | nil => exact ⟨[], rfl, rfl, nofun, rfl⟩
  | cons b bs ih =>
    obtain ⟨score, hscore⟩ := hstored b mem_cons_self
    have ih := ih fun b hb => hstored b (mem_cons_of_mem _ hb)
    by_cases hold : score < threshold
    · obtain ⟨indexed, hrest, hidx⟩ := ih index
      refine ⟨(b, none) :: indexed, ?_, ?_, ?_, hidx.consecutive⟩
      · rw [assignIndexes, hscore, some_bind, if_pos hold, hrest]
        rfl
      · rw [map_cons, hidx.blocks]
      · rintro e (_ | ⟨_, he⟩)
        · rw [hscore]
          exact iff_of_true rfl hold
        · exact hidx.tooOld e he
    · obtain ⟨indexed, hrest, hidx⟩ := ih (index + 1)
      refine ⟨(b, some (start + (index + 1))) :: indexed, ?_, ?_, ?_, ?_⟩
      · rw [assignIndexes, hscore, some_bind, if_neg hold, hrest]
        rfl
      · rw [map_cons, hidx.blocks]
      · rintro e (_ | ⟨_, he⟩)
        · rw [hscore]
          exact iff_of_false (by simp) hold
        · exact hidx.tooOld e he
      · exact congrArg _ hidx.consecutive

theorem exists_daaScore (hm : W.stores.Merges D d) :
    ∃ score, W.daaScore d.selectedParent = some score := by
  obtain ⟨header, hheader⟩ := hm.selectedParent_header
  exact ⟨header.daaScore, by rw [daaScore, hheader, map_some]⟩

/-- The mergeset of a block with its DAA indexes: the selected parent comes first, the others follow
in descending order. -/
theorem indexedMergeset_eq (hm : W.stores.Merges D d) {spDaaScore : ℕ}
    (hparent : W.stores.ghostdagStore.get? d.selectedParent = some parent)
    (hscore : W.daaScore d.selectedParent = some spDaaScore) :
    ∃ blocks indexed, W.indexedMergeset d parent.blueWork = some indexed ∧
      blocks.Perm (d.unorderedMergeset.map W.stores.key) ∧
      W.Indexed spDaaScore (W.lowestDaaBlueScore d) blocks indexed := by
  obtain ⟨rest, hrest, hperm, -⟩ := hm.descending_eq
  have hmem : ∀ b ∈ rest, ∃ x ∈ d.unorderedMergesetWithoutSelectedParent, W.stores.key x = b :=
    fun b hb => mem_map.mp (hperm.mem_iff.mp hb)
  have hstored : ∀ b ∈ W.stores.key d.selectedParent :: rest,
      ∃ score, W.blueScore (SortableBlock.hash b) = some score := by
    rintro b (_ | ⟨_, hb⟩)
    · refine ⟨parent.blueScore, ?_⟩
      rw [blueScore, show SortableBlock.hash (W.stores.key d.selectedParent) = d.selectedParent
        from rfl, hparent, map_some]
    · obtain ⟨x, hx, rfl⟩ := hmem b hb
      obtain ⟨data, hdata⟩ := hm.stored x hx
      refine ⟨data.blueScore, ?_⟩
      rw [blueScore, show SortableBlock.hash (W.stores.key x) = x from rfl, hdata, map_some]
  obtain ⟨indexed, hindexed, hidx⟩ :=
    W.assignIndexes_eq spDaaScore (W.lowestDaaBlueScore d) hstored 0
  refine ⟨W.stores.key d.selectedParent :: rest, indexed, ?_, ?_, hidx⟩
  · rw [indexedMergeset, hscore, some_bind, hrest, some_bind,
      ← GhostdagManager.key_of_get? hparent, hindexed]
  · rw [unorderedMergeset, hm.head, cons_append]
    exact hperm.cons _

/-- The manager with other contents of its caches. -/
def withCaches (W : SampledWindowManager)
    (difficulty pastMedianTime : OrdMap Hash BlockWindowHeap) : SampledWindowManager :=
  { W with
    blockWindowCacheForDifficulty := difficulty
    blockWindowCacheForPastMedianTime := pastMedianTime }

section Caches

variable {difficulty pastMedianTime : OrdMap Hash BlockWindowHeap}

theorem assignIndexes_withCaches (start threshold index : ℕ) (blocks : List SortableBlock) :
    (W.withCaches difficulty pastMedianTime).assignIndexes start threshold index blocks
      = W.assignIndexes start threshold index blocks := by
  induction blocks generalizing index with
  | nil => rfl
  | cons b blocks ih =>
    rw [assignIndexes, ih, ih]
    rfl

/-- Indexes do not depend on the caches. -/
theorem indexedMergeset_withCaches (selectedParentBlueWork : ℕ) :
    (W.withCaches difficulty pastMedianTime).indexedMergeset d selectedParentBlueWork
      = W.indexedMergeset d selectedParentBlueWork := by
  simp only [indexedMergeset, assignIndexes_withCaches]
  rfl

end Caches

/-! ### Samples -/

/-- The blocks reported as too old. -/
def nonDaaHashes (samples : List SampledBlock) : Finset Hash :=
  (samples.filterMap fun s => match s with
    | .sampled _ => none
    | .nonDaa hash => some hash).toFinset

/-- What is reported does not depend on the window. -/
theorem pushMergeset_snd (samples : List SampledBlock) (heap : BoundedSizeBlockHeap) :
    (pushMergeset samples heap).2 = nonDaaHashes samples := by
  induction samples using reverseRecOn with
  | nil => rfl
  | append_singleton samples s ih =>
    rw [pushMergeset] at ih ⊢
    rw [foldl_append, nonDaaHashes, filterMap_append, toFinset_append]
    cases s with
    | sampled b =>
      rw [← nonDaaHashes, ← ih]
      exact (Finset.union_empty _).symm
    | nonDaa hash =>
      rw [← nonDaaHashes, ← ih]
      exact (Finset.insert_eq hash _).trans (Finset.union_comm _ _)

end Window.SampledWindowManager

end KeryxNode
