import Mathlib.Order.MinMax
import KeryxNode.ErrorChain
import KeryxNode.Ghostdag

/-!
# Order and Mergesets in a Grown DAG

The search for a mergeset finds the blocks in the past of the new block that are not in the past of
the selected parent, provided that no parent is in that past. As long as no sum of works wraps
around, the blue work of a block is more than that of every block in its past, so the order of
blocks by blue work is topological.
-/

namespace KeryxNode

open List Worklist OrdMap

namespace Ghostdag

namespace GhostdagManager

open scoped Classical

variable {M : GhostdagManager} {D : Dag Hash} {rank : Hash → ℕ} {a b h p : Hash}
  {d : GhostdagData} {ps : List Hash}

/-- The block is stored. -/
def Known (M : GhostdagManager) (h : Hash) : Prop :=
  ∃ ps, M.relationsStore.get? h = some ps

/-- The blue work of a stored block. -/
def blueWork (M : GhostdagManager) (h : Hash) : ℕ :=
  ((M.ghostdagStore.get? h).map (·.blueWork)).getD 0

/-- The key blocks are ordered by. -/
def key (M : GhostdagManager) (h : Hash) : ℕ ×ₗ Hash :=
  toLex (M.blueWork h, h)

/-- The selected parent of a block is its highest parent. -/
structure Selected (M : GhostdagManager) (h : Hash) (d : GhostdagData) : Prop where
  mem : d.selectedParent ∈ M.parents h
  origin_notMem : origin ∉ M.parents h
  best : ∀ p ∈ M.parents h, M.key p ≤ M.key d.selectedParent

/-- Every block above genesis has more blue work than its selected parent. -/
def Rising (M : GhostdagManager) : Prop :=
  ∀ h d, M.ghostdagStore.get? h = some d → h ≠ origin → h ≠ M.genesisHash →
    M.blueWork d.selectedParent < d.blueWork

/-- The stores of a DAG that grew from genesis block by block; the rank of a block is the number of
blocks stored before it. -/
structure Grown (M : GhostdagManager) (D : Dag Hash) (rank : Hash → ℕ) : Prop where
  parents : D.parents = M.parents
  stored : ∀ h, M.Known h ↔ ∃ d, M.ghostdagStore.get? h = some d
  closed : ∀ {h p}, p ∈ M.parents h → M.Known p
  origin : M.relationsStore.get? origin = some []
  genesis : M.relationsStore.get? M.genesisHash = some [Ghostdag.origin]
  genesisData : M.ghostdagStore.get? M.genesisHash = some genesisGhostdagData
  rank_lt : ∀ h, ∀ p ∈ M.parents h, rank p < rank h
  rank_size : ∀ {h}, M.Known h → rank h < M.relationsStore.size
  selected : ∀ {h d}, M.ghostdagStore.get? h = some d → h ≠ Ghostdag.origin →
    h ≠ M.genesisHash → M.Selected h d

theorem parents_of_get? (h' : M.relationsStore.get? h = some ps) : M.parents h = ps := by
  rw [GhostdagManager.parents, h', Option.getD_some]

theorem known_of_mem_parents (hp : p ∈ M.parents h) : M.Known h := by
  rw [GhostdagManager.parents] at hp
  cases hget : M.relationsStore.get? h with
  | none => exact absurd (hget ▸ hp) not_mem_nil
  | some ps => exact ⟨ps, hget⟩

theorem blueWork_of_get? (hd : M.ghostdagStore.get? h = some d) : M.blueWork h = d.blueWork := by
  rw [blueWork, hd, Option.map_some, Option.getD_some]

theorem key_of_get? (hd : M.ghostdagStore.get? h = some d) :
    M.key h = toLex (d.blueWork, h) := by
  rw [key, blueWork_of_get? hd]

theorem sortableBlock_of_get? (hd : M.ghostdagStore.get? h = some d) :
    M.sortableBlock h = some (M.key h) := by
  rw [sortableBlock, hd, Option.map_some, key_of_get? hd]

theorem key_injective : Function.Injective M.key := by
  intro a b hab
  exact congrArg (fun x : ℕ ×ₗ Hash => (ofLex x).2) hab

/-- The parents of a block that are not in the past of the selected parent. -/
noncomputable def outsideParents (M : GhostdagManager) (D : Dag Hash) (sp x : Hash) : List Hash :=
  (M.parents x).filter fun p => !decide (D.Reaches p sp)

/-- Parents of a new block: blocks of the DAG none of which is in the past of another. -/
structure NewParents (M : GhostdagManager) (D : Dag Hash) (ps : List Hash) : Prop where
  nonempty : ps ≠ []
  known : ∀ p ∈ ps, M.Known p
  origin_notMem : origin ∉ ps
  antichain : ∀ p ∈ ps, ∀ q ∈ ps, ¬ D.InPast p q

/-- The blocks a new block merges: in its past, but not the selected parent nor in its past. -/
def Merged (D : Dag Hash) (sp : Hash) (ps : List Hash) (x : Hash) : Prop :=
  (∃ p ∈ ps, D.Reaches x p) ∧ ¬ D.Reaches x sp

instance : Std.LawfulOrderMax (ℕ ×ₗ Hash) where
  max_eq_or := max_choice
  max_le_iff _ _ _ := max_le_iff

namespace Grown

variable (hG : Grown M D rank) {sp : Hash}
include hG

/-! ### Reachability -/

theorem rank_lt' (h : Hash) : ∀ p ∈ D.parents h, rank p < rank h :=
  hG.parents ▸ hG.rank_lt h

/-- The past of a stored block is stored. -/
theorem known_of_reaches (hb : M.Known b) (hab : D.Reaches a b) : M.Known a := by
  obtain rfl | hpast := Dag.reaches_iff_eq_or_inPast.mp hab
  · exact hb
  · induction hpast using Relation.TransGen.head_induction_on with
    | single hstep => exact hG.closed (hG.parents ▸ hstep)
    | head hstep _ _ => exact hG.closed (hG.parents ▸ hstep)

/-- The reachability service answers exactly. -/
theorem isDagAncestorOf_eq (ha : M.Known a) (hb : M.Known b) :
    M.isDagAncestorOf a b = some (decide (D.Reaches a b)) := by
  have hcontains : ∀ {x}, M.Known x → M.relationsStore.contains x = true := fun hx =>
    contains_eq_true.mpr hx
  have hmem : a ∈ Dag.ancestors M.parents M.relationsStore.size b ↔ D.Reaches a b := by
    rw [← hG.parents]
    exact Dag.mem_ancestors hG.rank_lt' (hG.rank_size hb).le
  rw [isDagAncestorOf, hcontains ha, hcontains hb, Bool.and_self, if_pos rfl, Option.some_inj,
    Bool.eq_iff_iff, contains_iff_mem, hmem, decide_eq_true_eq]

/-- Every block but the origin has genesis in its past or is genesis. -/
theorem genesis_reaches (hh : M.Known h) (hne : h ≠ Ghostdag.origin) :
    D.Reaches M.genesisHash h := by
  induction h using D.wf.induction with
  | _ h ih =>
    by_cases hgenesis : h = M.genesisHash
    · exact hgenesis ▸ Dag.Reaches.refl h
    · obtain ⟨d, hd⟩ := (hG.stored h).mp hh
      have hsel := hG.selected hd hne hgenesis
      have hparent : d.selectedParent ∈ D.parents h := hG.parents ▸ hsel.mem
      have hne' : d.selectedParent ≠ Ghostdag.origin := fun heq =>
        hsel.origin_notMem (heq ▸ hsel.mem)
      exact (ih _ hparent (hG.closed hsel.mem) hne').trans (Dag.Reaches.of_parent hparent)

theorem origin_reaches (hh : M.Known h) : D.Reaches Ghostdag.origin h := by
  by_cases hne : h = Ghostdag.origin
  · exact hne ▸ Dag.Reaches.refl h
  · have hparent : Ghostdag.origin ∈ D.parents M.genesisHash := by
      rw [hG.parents, parents_of_get? hG.genesis]
      exact mem_singleton_self _
    exact (Dag.Reaches.of_parent hparent).trans (hG.genesis_reaches hh hne)

/-! ### Order -/

section Rising

variable (hR : M.Rising)
include hR

/-- A parent of a block is below it in blue work, unless it is the origin. -/
theorem blueWork_lt_of_parent (hp : p ∈ M.parents h) (hne : p ≠ Ghostdag.origin) :
    M.blueWork p < M.blueWork h := by
  have hh : M.Known h := known_of_mem_parents hp
  obtain ⟨d, hd⟩ := (hG.stored h).mp hh
  have horigin : h ≠ Ghostdag.origin := by
    rintro rfl
    rw [parents_of_get? hG.origin] at hp
    cases hp
  have hgenesis : h ≠ M.genesisHash := by
    rintro rfl
    rw [parents_of_get? hG.genesis, mem_singleton] at hp
    exact hne hp
  have hsel := hG.selected hd horigin hgenesis
  rw [blueWork_of_get? hd]
  have hle : M.blueWork p ≤ M.blueWork d.selectedParent :=
    (Prod.Lex.monotone_fst _ _ (hsel.best p hp) :)
  exact hle.trans_lt (hR h d hd horigin hgenesis)

/-- **The order is topological**: what is in the past of a block is below it. -/
theorem blueWork_lt_of_inPast (hab : D.InPast a b) (hne : a ≠ Ghostdag.origin) :
    M.blueWork a < M.blueWork b := by
  induction hab using Relation.TransGen.head_induction_on with
  | single hstep => exact hG.blueWork_lt_of_parent hR (hG.parents ▸ hstep) hne
  | @head a c hstep hpast ih =>
    refine (hG.blueWork_lt_of_parent hR (hG.parents ▸ hstep) hne).trans (ih ?_)
    rintro rfl
    rw [hG.parents, parents_of_get? hG.origin] at hstep
    cases hstep

theorem key_lt_of_inPast (hab : D.InPast a b) (hne : a ≠ Ghostdag.origin) :
    M.key a < M.key b :=
  Prod.Lex.toLex_lt_toLex.mpr (.inl (hG.blueWork_lt_of_inPast hR hab hne))

theorem key_le_of_reaches (hab : D.Reaches a b) (hne : a ≠ Ghostdag.origin) :
    M.key a ≤ M.key b := by
  obtain rfl | hpast := Dag.reaches_iff_eq_or_inPast.mp hab
  · exact le_refl _
  · exact (hG.key_lt_of_inPast hR hpast hne).le

end Rising

theorem mapM_sortableBlock (hps : ∀ p ∈ ps, M.Known p) :
    ps.mapM M.sortableBlock = some (ps.map M.key) := by
  refine mapM_eq_some_map fun p hp => ?_
  obtain ⟨d, hd⟩ := (hG.stored p).mp (hps p hp)
  exact sortableBlock_of_get? hd

/-- The selected parent is the highest parent. -/
theorem findSelectedParent_eq (hne : ps ≠ []) (hps : ∀ p ∈ ps, M.Known p) :
    ∃ sp ∈ ps, M.findSelectedParent ps = some sp ∧ ∀ p ∈ ps, M.key p ≤ M.key sp := by
  obtain ⟨best, hbest⟩ : ∃ best, (ps.map M.key).max? = some best := by
    refine Option.isSome_iff_exists.mp ?_
    simpa using hne
  obtain ⟨hmem, hmax⟩ := max?_eq_some_iff.mp hbest
  obtain ⟨sp, hsp, rfl⟩ := mem_map.mp hmem
  refine ⟨sp, hsp, ?_, fun p hp => hmax _ (mem_map_of_mem hp)⟩
  rw [findSelectedParent, hG.mapM_sortableBlock hps, some_bind, hbest]
  rfl

/-- Blocks in order. -/
theorem sortBlocks_eq (hps : ∀ p ∈ ps, M.Known p) :
    ∃ sorted, M.sortBlocks ps = some sorted ∧ sorted.Perm ps ∧
      sorted.Pairwise fun a b => M.key a ≤ M.key b := by
  let keys := (ps.map M.key).insertionSort (· ≤ ·)
  have hperm : keys.Perm (ps.map M.key) := perm_insertionSort _ _
  have hback : (keys.map fun x => (ofLex x).2).map M.key = keys := by
    rw [map_map]
    refine map_congr_left (fun x hx => ?_) |>.trans (map_id keys)
    obtain ⟨p, -, rfl⟩ := mem_map.mp (hperm.mem_iff.mp hx)
    rfl
  refine ⟨keys.map fun x => (ofLex x).2, ?_, ?_, ?_⟩
  · rw [sortBlocks, hG.mapM_sortableBlock hps]
    rfl
  · refine (hperm.map _).trans (List.Perm.of_eq ?_)
    rw [map_map]
    exact map_id ps
  · rw [← pairwise_map (f := M.key) (R := (· ≤ ·)), hback]
    exact pairwise_insertionSort _ _

/-! ### The mergeset search -/

/-- Visiting parents finds the new ones among those outside the past of the selected parent. -/
theorem foldlM_visitParent (hsp : M.Known sp) (hps : ∀ p ∈ ps, M.Known p) (s : MergesetSearch)
    (hpast : ∀ x ∈ s.past, D.Reaches x sp) :
    ∃ past, (∀ x ∈ past, D.Reaches x sp) ∧ ps.foldlM (M.visitParent sp) s = some
      ⟨s.queue ++ discover s.mergeset (ps.filter fun p => !decide (D.Reaches p sp)),
        s.mergeset ++ discover s.mergeset (ps.filter fun p => !decide (D.Reaches p sp)),
        past⟩ := by
  induction ps generalizing s with
  | nil => exact ⟨s.past, hpast, by simp [discover]⟩
  | cons p ps ih =>
    have htail : ∀ p' ∈ ps, M.Known p' := fun p' hp' => hps p' (mem_cons_of_mem p hp')
    rw [foldlM_cons, visitParent, hG.isDagAncestorOf_eq (hps p mem_cons_self) hsp]
    by_cases hreach : D.Reaches p sp
    · -- The parent is in the past of the selected parent, whether that was noted before or not.
      rw [filter_cons_of_neg (by simpa using hreach)]
      by_cases hseen : p ∈ s.mergeset ∨ p ∈ s.past
      · rw [if_pos hseen]
        exact ih htail s hpast
      · rw [if_neg hseen, decide_eq_true hreach]
        exact ih htail { s with past := p :: s.past } (forall_mem_cons.mpr ⟨hreach, hpast⟩)
    · rw [filter_cons_of_pos (by simpa using hreach), discover]
      by_cases hseen : p ∈ s.mergeset
      · rw [if_pos (Or.inl hseen), if_pos hseen]
        exact ih htail s hpast
      · have hnot : ¬ (p ∈ s.mergeset ∨ p ∈ s.past) := fun h =>
          h.elim hseen fun hp => hreach (hpast p hp)
        have hfound : ∀ x, x ∈ s.mergeset ++ [p] ↔ x ∈ p :: s.mergeset := fun x => by
          rw [mem_append, mem_singleton, mem_cons, or_comm]
        rw [if_neg hnot, if_neg hseen, decide_eq_false hreach]
        obtain ⟨past, hpast', hfold⟩ := ih htail
          { s with queue := s.queue ++ [p], mergeset := s.mergeset ++ [p] } hpast
        refine ⟨past, hpast', hfold.trans ?_⟩
        rw [discover_congr hfound, append_assoc, append_assoc]
        rfl

/-- With enough rounds the search is a traversal of the blocks outside the past of the selected
parent. -/
theorem searchMergeset_eq (hsp : M.Known sp) {rounds : ℕ} {queue found past : List Hash}
    (hqueue : ∀ x ∈ queue, M.Known x) (hready : Ready M.relationsStore.keys rounds queue found)
    (hpast : ∀ x ∈ past, D.Reaches x sp) :
    M.searchMergeset sp rounds ⟨queue, found, past⟩
      = some (Worklist.traverse (outsideParents M D sp) rounds queue found) := by
  induction rounds generalizing queue found past with
  | zero =>
    obtain rfl := hready.queue_eq_nil
    rfl
  | succ rounds ih =>
    cases queue with
    | nil => rfl
    | cons x queue =>
      obtain ⟨xs, hxs⟩ := hqueue x mem_cons_self
      have hparents : M.parents x = xs := parents_of_get? hxs
      have hxsKnown : ∀ p ∈ xs, M.Known p := fun p hp => hG.closed (hparents ▸ hp)
      obtain ⟨past', hpast', hfold⟩ := hG.foldlM_visitParent hsp hxsKnown
        ⟨queue, found, past⟩ hpast
      have hnew : ∀ y ∈ outsideParents M D sp x, M.Known y := fun y hy =>
        hG.closed (mem_of_mem_filter hy)
      rw [searchMergeset, hxs, some_bind, hfold, Worklist.traverse]
      rw [outsideParents, hparents] at hnew ⊢
      refine ih ?_ (hready.step fun y hy => mem_keys_iff.mpr (hnew y hy)) hpast'
      exact forall_mem_append.mpr ⟨fun y hy => hqueue y (mem_cons_of_mem x hy),
        fun y hy => hnew y (mem_discover.mp hy).1⟩

/-- A path of the search leads to blocks outside the past of the selected parent. -/
theorem outside_of_path {q x : Hash} (hq : ¬ D.Reaches q sp)
    (h : Relation.ReflTransGen (Worklist.Step (outsideParents M D sp)) q x) :
    D.Reaches x q ∧ ¬ D.Reaches x sp := by
  induction h with
  | refl => exact ⟨.refl q, hq⟩
  | tail _ hyx ih =>
    obtain ⟨hmem, hout⟩ := mem_filter.mp hyx
    exact ⟨(Dag.Reaches.of_parent (hG.parents ▸ hmem)).trans ih.1, by simpa using hout⟩

/-- The search finds the merged blocks, each once. -/
theorem unorderedMergeset_eq (hps : NewParents M D ps) (hsp : sp ∈ ps) :
    ∃ mergeset, M.unorderedMergesetWithoutSelectedParent sp ps = some mergeset ∧
      mergeset.Nodup ∧ ∀ x, x ∈ mergeset ↔ Merged D sp ps x := by
  let queue := ps.filter fun p => decide (p ≠ sp)
  let found := discover [] queue
  have hqueue : ∀ x, x ∈ queue ↔ x ∈ ps ∧ x ≠ sp := fun x => by simp [queue]
  have hfound : ∀ x, x ∈ found ↔ x ∈ queue := fun x => by simp [found, mem_discover]
  have hknown : ∀ x ∈ queue, M.Known x := fun x hx => hps.known x ((hqueue x).mp hx).1
  have hready : Ready M.relationsStore.keys (M.relationsStore.size + ps.length) queue found := by
    refine ⟨fun x hx => mem_keys_iff.mpr (hknown x ((hfound x).mp hx)), nodup_discover _ _, ?_⟩
    have hle : queue.length ≤ ps.length := length_filter_le _ _
    rw [length_keys]
    omega
  refine ⟨Worklist.traverse (outsideParents M D sp) (M.relationsStore.size + ps.length) queue found,
    hG.searchMergeset_eq (hps.known sp hsp) hknown hready (by simp),
    nodup_traverse hready.nodup, fun x => ?_⟩
  refine (mem_traverse_self_iff
    (fun x p hp => mem_keys_iff.mpr (hG.closed (mem_of_mem_filter hp))) hready hfound).trans
    ⟨?_, ?_⟩
  · rintro ⟨q, hq, hpath⟩
    obtain ⟨hqps, hne⟩ := (hqueue q).mp hq
    -- A parent other than the selected one is outside its past.
    have hqout : ¬ D.Reaches q sp := fun hreach =>
      (Dag.reaches_iff_eq_or_inPast.mp hreach).elim hne (hps.antichain q hqps sp hsp)
    obtain ⟨hreach, hout⟩ := hG.outside_of_path hqout hpath
    exact ⟨⟨q, hqps, hreach⟩, hout⟩
  · -- All blocks on a path from a parent to a merged block are merged.
    rintro ⟨⟨p, hp, hreach⟩, hout⟩
    refine ⟨p, (hqueue p).mpr ⟨hp, fun heq => hout (heq ▸ hreach)⟩, ?_⟩
    exact (hreach.outside hout).lift id fun a b ⟨hab, _, hb⟩ =>
      mem_filter.mpr ⟨hG.parents ▸ hab, by simpa using hb⟩

/-- **The mergeset** without the selected parent: the merged blocks, lowest first. -/
theorem orderedMergeset_eq (hps : NewParents M D ps) (hsp : sp ∈ ps) :
    ∃ mergeset, M.orderedMergesetWithoutSelectedParent sp ps = some mergeset ∧
      (mergeset.Pairwise fun a b => M.key a < M.key b) ∧
      ∀ x, x ∈ mergeset ↔ Merged D sp ps x := by
  obtain ⟨unordered, hunordered, hnodup, hmem⟩ := hG.unorderedMergeset_eq hps hsp
  have hknown : ∀ x ∈ unordered, M.Known x := by
    intro x hx
    obtain ⟨⟨p, hp, hreach⟩, -⟩ := (hmem x).mp hx
    exact hG.known_of_reaches (hps.known p hp) hreach
  obtain ⟨sorted, hsort, hperm, hsorted⟩ := hG.sortBlocks_eq hknown
  refine ⟨sorted, ?_, ?_, fun x => hperm.mem_iff.trans (hmem x)⟩
  · rw [orderedMergesetWithoutSelectedParent, hunordered, some_bind, hsort]
  · have hne : sorted.Pairwise (· ≠ ·) := hperm.nodup_iff.mpr hnodup
    exact (hsorted.and hne).imp fun ⟨hle, hne⟩ => hle.lt_of_ne fun heq => hne (key_injective heq)

end Grown

/-- A merged block is in the anticone of the selected parent: no parent is in the future of that
one. -/
theorem NewParents.not_reaches_of_merged (hps : NewParents M D ps) {sp x : Hash} (hsp : sp ∈ ps)
    (hx : Merged D sp ps x) : ¬ D.Reaches sp x := by
  intro hreach
  obtain ⟨⟨p, hp, hxp⟩, hout⟩ := hx
  obtain rfl | hpast := Dag.reaches_iff_eq_or_inPast.mp hreach
  · exact hout (Dag.Reaches.refl sp)
  · exact hps.antichain sp hsp p hp (hpast.trans_reaches hxp)

end GhostdagManager

end Ghostdag

end KeryxNode
