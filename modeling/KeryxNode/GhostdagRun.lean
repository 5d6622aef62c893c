import KeryxNode.GhostdagColoring
import KeryxNode.PartialRun

/-!
# A Block DAG Coloured Block by Block

A new block leaves the blocks before it as they are: their past, their blue sets and the counts
found for them do not change. So a DAG that grows from genesis keeps its mergesets, provided that no
parent of a new block is in the past of another one, and stays well coloured, provided that no sum
of works wraps around besides.

## Main results

* `ghostdag_cluster`: in every such run the blue set of every block is a cluster, the counts found
  for its members are exact, and a block is coloured red only if it would break the bound.
* `ghostdag_cluster_fails`: a parent in the past of another one is counted wrongly, and once blue
  work has wrapped around a block is coloured red without need.
-/

namespace KeryxNode

open List OrdMap Function Dag

namespace Ghostdag

namespace GhostdagManager

open scoped Classical

variable {M : GhostdagManager} {D : Dag Hash} {rank : Hash → ℕ} {h x : Hash}
  {d data : GhostdagData} {l : List Hash} {b : NewBlock} {ps : List Hash} {r : Hash}

/-- The mergeset of a block: what is in its past and not in that of its selected parent, blues and
reds in order. No parent is in the past of another one. -/
structure Shape (M : GhostdagManager) (D : Dag Hash) (h : Hash) (d : GhostdagData) : Prop where
  antichain : ∀ p ∈ M.parents h, ∀ q ∈ M.parents h, ¬ D.InPast p q
  head : d.mergesetBlues = d.selectedParent :: d.mergesetBlues.tail
  merged : ∀ x, x ∈ d.mergesetBlues.tail ++ d.mergesetReds ↔
    D.InPast x h ∧ ¬ D.Reaches x d.selectedParent
  nodup : (d.mergesetBlues.tail ++ d.mergesetReds).Nodup
  blues : d.mergesetBlues.tail.Pairwise fun a b => M.key a < M.key b
  reds : d.mergesetReds.Pairwise fun a b => M.key a < M.key b

/-- How a block was coloured: the blues of the mergeset are few enough, and every red block would
have broken the bound. -/
structure Coloured (M : GhostdagManager) (D : Dag Hash) (h : Hash) (d : GhostdagData) : Prop
    extends Shape M D h d where
  length : d.mergesetBlues.length ≤ M.k + 1
  forced : ∃ d' lsp, M.ghostdagStore.get? d.selectedParent = some d' ∧ M.Blues d' lsp ∧
    ∀ r ∈ d.mergesetReds, ∃ x ∈ r :: M.acceptedBefore d lsp r,
      M.k < anticoneCount D (r :: M.acceptedBefore d lsp r) x

/-- A grown DAG with the mergesets of its blocks. -/
structure Outlined (M : GhostdagManager) (D : Dag Hash) (rank : Hash → ℕ) : Prop
    extends Grown M D rank where
  shape : ∀ {h d}, M.ghostdagStore.get? h = some d → h ≠ Ghostdag.origin →
    h ≠ M.genesisHash → Shape M D h d

/-- A DAG all of whose blocks are well coloured. -/
structure Painted (M : GhostdagManager) (D : Dag Hash) (rank : Hash → ℕ) : Prop
    extends Clustered M D rank where
  coloured : ∀ {h d}, M.ghostdagStore.get? h = some d → h ≠ Ghostdag.origin →
    h ≠ M.genesisHash → Coloured M D h d

/-! ### The colouring of a new block -/

theorem one_le_of_blockWork {n : ℕ} (hn : M.blockWork h = some n) : 1 ≤ n := by
  obtain ⟨header, -, hn⟩ := Option.bind_eq_some_iff.mp hn
  obtain ⟨work, hwork, hn⟩ := Option.bind_eq_some_iff.mp hn
  have hpos : 1 ≤ work := by
    rw [calcWork] at hwork
    split at hwork
    · rw [← Option.some.inj hwork]
      exact Nat.le_add_left 1 _
    · cases hwork
  rw [← Option.some.inj hn]
  split
  · exact hpos
  · exact hpos.trans (Nat.le_max_left _ _)

/-- The blue work of a block with the given parents fits 192 bits before it is reduced. -/
def WorkFits (M : GhostdagManager) (ps : List Hash) : Prop :=
  ∀ data ∈ M.ghostdag ps, ∀ parent ∈ M.ghostdagStore.get? data.selectedParent,
    ∀ works ∈ data.mergesetBlues.mapM M.blockWork, parent.blueWork + works.sum < 2 ^ 192

instance (M : GhostdagManager) (ps : List Hash) : Decidable (M.WorkFits ps) :=
  inferInstanceAs (Decidable (∀ data ∈ M.ghostdag ps, _))

/-- The parts of the colouring of a new block. -/
theorem Grown.ghostdag_eq (hG : Grown M D rank) (hps : NewParents M D ps)
    (hdata : M.ghostdag ps = some data) :
    ∃ sp ∈ ps, ∃ nd parent works, M.findSelectedParent ps = some sp ∧
      (∀ p ∈ ps, M.key p ≤ M.key sp) ∧ M.colourMergeset sp ps = some nd ∧
      M.ghostdagStore.get? nd.selectedParent = some parent ∧
      nd.mergesetBlues.mapM M.blockWork = some works ∧
      data = { nd with
        blueScore := parent.blueScore + nd.mergesetBlues.length
        blueWork := (parent.blueWork + works.sum % 2 ^ 192) % 2 ^ 192 } := by
  obtain ⟨sp, hsp, hselect, hbest⟩ := hG.findSelectedParent_eq hps.nonempty hps.known
  have hne : sp ≠ Ghostdag.origin := fun heq => hps.origin_notMem (heq ▸ hsp)
  have hempty : ps.isEmpty = false := by simpa using hps.nonempty
  rw [ghostdag, hempty, hselect] at hdata
  simp only [some_bind, if_neg hne] at hdata
  obtain ⟨nd, hcolour, hdata⟩ := Option.bind_eq_some_iff.mp hdata
  obtain ⟨parent, hparent, hdata⟩ := Option.bind_eq_some_iff.mp hdata
  obtain ⟨works, hworks, hdata⟩ := Option.bind_eq_some_iff.mp hdata
  cases hdata
  exact ⟨sp, hsp, nd, parent, works, hselect, hbest, hcolour, hparent, hworks, rfl⟩

/-- What is stored for a new block: its mergeset, taken in order, is divided into blues and reds,
and it has a higher blue score than the selected parent, that one being a merged blue. -/
structure Drawn (M : GhostdagManager) (D : Dag Hash) (ps : List Hash) (sp : Hash)
    (mergeset : List Hash) (data : GhostdagData) : Prop where
  parents : NewParents M D ps
  mem : sp ∈ ps
  best : ∀ p ∈ ps, M.key p ≤ M.key sp
  sorted : mergeset.Pairwise fun a b => M.key a < M.key b
  merged : ∀ x, x ∈ mergeset ↔ Merged D sp ps x
  divided : Divided sp mergeset data
  score : ∀ {parent}, M.ghostdagStore.get? sp = some parent → parent.blueScore < data.blueScore

theorem Grown.drawn (hG : Grown M D rank) (hps : NewParents M D ps)
    (hdata : M.ghostdag ps = some data) : ∃ sp mergeset, Drawn M D ps sp mergeset data := by
  obtain ⟨sp, hsp, nd, parent, works, -, hbest, hcolour, hparent, -, rfl⟩ :=
    hG.ghostdag_eq hps hdata
  obtain ⟨mergeset, hmergeset, hsorted, hmem⟩ := hG.orderedMergeset_eq hps hsp
  rw [colourMergeset, hmergeset] at hcolour
  have hdiv := (divided_start sp).of_foldlM mergeset hcolour
  refine ⟨sp, mergeset, hps, hsp, hbest, hsorted, hmem, ⟨hdiv.1, hdiv.2, hdiv.3, hdiv.4, hdiv.5⟩,
    fun hget => ?_⟩
  obtain rfl := Option.mem_unique (hdiv.selectedParent ▸ hparent) hget
  refine Nat.lt_add_of_pos_right ?_
  rw [hdiv.head]
  exact Nat.succ_pos _

/-- New parents are about to be merged by the selected one. -/
theorem Clustered.exists_merging (hC : Clustered M D rank) (hps : NewParents M D ps) :
    ∃ sp lsp, M.findSelectedParent ps = some sp ∧ Merging M D rank ps sp lsp := by
  obtain ⟨sp, hsp, hselect, hbest⟩ := hC.findSelectedParent_eq hps.nonempty hps.known
  obtain ⟨d, hd⟩ := (hC.stored sp).mp (hps.known sp hsp)
  obtain ⟨lsp, hview⟩ := hC.view hd fun heq => hps.origin_notMem (heq ▸ hsp)
  exact ⟨sp, lsp, hselect, hC, hps, hsp, hbest, d, hd, hview⟩

/-- What the colouring of a new block is: that of its mergeset, with more blue work than the
selected parent unless the sum of works wraps around. -/
theorem Clustered.of_ghostdag (hC : Clustered M D rank) (hps : NewParents M D ps)
    (hfits : M.WorkFits ps) (hdata : M.ghostdag ps = some data) :
    ∃ sp lsp mergeset, Merging M D rank ps sp lsp ∧ Colouring M D rank sp lsp mergeset data ∧
      (mergeset.Pairwise fun a b => M.key a < M.key b) ∧
      (∀ x, x ∈ mergeset ↔ Merged D sp ps x) ∧ M.blueWork sp < data.blueWork := by
  obtain ⟨sp, lsp, hselect, hm⟩ := hC.exists_merging hps
  obtain ⟨sp', -, nd, parent, works, hselect', -, hcolour, hparent, hworks, rfl⟩ :=
    hC.ghostdag_eq hps hdata
  obtain rfl := Option.mem_unique hselect hselect'
  obtain ⟨mergeset, nd', hcolour', hcol, hsorted, hmem⟩ := hm.colourMergeset_eq
  obtain rfl := Option.mem_unique hcolour hcolour'
  have hdiv := hcol.toDivided
  refine ⟨sp, lsp, mergeset, hm, ⟨⟨hdiv.1, hdiv.2, hdiv.3, hdiv.4, hdiv.5⟩,
    hcol.sizes, hcol.cluster, hcol.length, hcol.forced⟩, hsorted, hmem, ?_⟩
  -- The selected parent is a merged blue and has some work.
  have hlt : parent.blueWork + works.sum < 2 ^ 192 := hfits _ hdata parent hparent works hworks
  rw [hcol.selectedParent] at hparent
  rw [blueWork_of_get? hparent]
  have hpos : 1 ≤ works.sum := by
    rw [hcol.head, mapM_eq_some] at hworks
    cases hworks with
    | cons hwork _ =>
      exact (one_le_of_blockWork hwork).trans (Nat.le_add_right _ _)
  rw [Nat.mod_eq_of_lt (Nat.lt_of_le_of_lt (Nat.le_add_left _ _) hlt), Nat.mod_eq_of_lt hlt]
  exact Nat.lt_add_of_pos_right hpos

/-! ### The stores with a new block -/

theorem parents_insertBlock (x : Hash) :
    (M.insertBlock b data).parents x = if x = b.hash then b.parents else M.parents x := by
  rw [GhostdagManager.parents, insertBlock, get?_insert]
  split <;> rfl

theorem known_insertBlock : (M.insertBlock b data).Known x ↔ x = b.hash ∨ M.Known x := by
  rw [Known, Known, insertBlock]
  rw [get?_insert]
  by_cases hx : x = b.hash
  · simp [hx]
  · simp [hx]

theorem get?_insertBlock (x : Hash) : (M.insertBlock b data).ghostdagStore.get? x
    = if x = b.hash then some data else M.ghostdagStore.get? x := by
  rw [insertBlock, get?_insert]

theorem blueWork_insertBlock (hx : x ≠ b.hash) :
    (M.insertBlock b data).blueWork x = M.blueWork x := by
  rw [blueWork, blueWork, get?_insertBlock, if_neg hx]

theorem key_insertBlock (hx : x ≠ b.hash) : (M.insertBlock b data).key x = M.key x := by
  rw [key, key, blueWork_insertBlock hx]

/-- A selected parent among old parents. -/
theorem selected_insertBlock (hparents : (M.insertBlock b data).parents h = ps)
    (hne : ∀ p ∈ ps, p ≠ b.hash) (hmem : d.selectedParent ∈ ps) (horigin : origin ∉ ps)
    (hbest : ∀ p ∈ ps, M.key p ≤ M.key d.selectedParent) :
    (M.insertBlock b data).Selected h d := by
  refine ⟨hparents ▸ hmem, hparents ▸ horigin, fun p hp => ?_⟩
  rw [hparents] at hp
  rw [key_insertBlock (hne p hp), key_insertBlock (hne _ hmem)]
  exact hbest p hp

section Insert

variable (hnew : ¬ M.Known b.hash)
include hnew

theorem ne_of_known (hx : M.Known x) : x ≠ b.hash := by
  rintro rfl
  exact hnew hx

theorem size_insertBlock :
    (M.insertBlock b data).relationsStore.size = M.relationsStore.size + 1 := by
  have hnone : M.relationsStore.get? b.hash = none := by
    rw [Option.eq_none_iff_forall_ne_some]
    intro ps hps
    exact hnew ⟨ps, hps⟩
  have hlen := (perm_entries_insert b.parents hnone).length_eq
  rwa [length_cons] at hlen

variable (hstored : ∀ x, M.Known x ↔ ∃ d, M.ghostdagStore.get? x = some d)
include hstored

theorem get?_insertBlock_of_get? (hd : M.ghostdagStore.get? x = some d) :
    (M.insertBlock b data).ghostdagStore.get? x = some d := by
  rw [get?_insertBlock, if_neg (ne_of_known hnew ((hstored x).mpr ⟨d, hd⟩)), hd]

/-- The blues of the old blocks stay. -/
theorem Blues.insertBlock (hl : M.Blues d l) : (M.insertBlock b data).Blues d l := by
  induction hl with
  | genesis hsp => exact .genesis hsp
  | chain hsp hget _ ih => exact .chain hsp (get?_insertBlock_of_get? hnew hstored hget) ih

/-- The sizes found for them stay. -/
theorem findAnticoneSize_insertBlock {rounds n : ℕ} {sizes : OrdMap Hash ℕ} {sp : Hash}
    (hfind : M.findAnticoneSize x rounds sizes sp = some n) :
    (M.insertBlock b data).findAnticoneSize x rounds sizes sp = some n := by
  induction rounds generalizing sizes sp with
  | zero => exact absurd hfind (by simp [findAnticoneSize])
  | succ rounds ih =>
    rw [findAnticoneSize] at hfind ⊢
    split at hfind
    · exact hfind
    · by_cases hstop : sp = M.genesisHash ∨ sp = origin
      · rw [if_pos hstop] at hfind
        cases hfind
      · rw [if_neg hstop] at hfind
        obtain ⟨d, hd, hfind⟩ := Option.bind_eq_some_iff.mp hfind
        have hstop' : ¬ (sp = (M.insertBlock b data).genesisHash ∨ sp = origin) := hstop
        rw [if_neg hstop', get?_insertBlock_of_get? hnew hstored hd]
        exact ih hfind

end Insert

section Extend

variable {hparent : ∀ y, b.hash ∉ D.parents y} {hps : b.hash ∉ b.parents}

/-- Counts among the old blocks stay. -/
theorem anticoneCount_extend (hx : x ≠ b.hash) (hl : ∀ y ∈ l, y ≠ b.hash) :
    anticoneCount (D.extend b.hash b.parents hparent hps) l x = anticoneCount D l x := by
  refine countP_congr fun y hy => ?_
  rw [decide_eq_true_eq, decide_eq_true_eq]
  exact and_congr (not_congr (reaches_extend (hl y hy))) (not_congr (reaches_extend hx))

/-- What is known of the blues of an old block stays. -/
theorem BlueView.insertBlock (hG : Grown M D rank) (hnew : ¬ M.Known b.hash) (hh : M.Known h)
    (hview : BlueView M D rank h d l) :
    BlueView (M.insertBlock b data) (D.extend b.hash b.parents hparent hps)
      (update rank b.hash M.relationsStore.size) h d l := by
  have hl : ∀ x ∈ l, x ≠ b.hash := fun x hx =>
    ne_of_known hnew (hG.known_of_reaches hh (hview.past x hx).reaches)
  have hne : h ≠ b.hash := ne_of_known hnew hh
  refine ⟨hview.blues.insertBlock hnew hG.stored, hview.nodup,
    fun x hx => (inPast_extend hne).mpr (hview.past x hx), ?_, ?_⟩
  · intro x hx rounds hrounds
    rw [update_of_ne hne] at hrounds
    rw [anticoneCount_extend (hl x hx) hl]
    exact findAnticoneSize_insertBlock hnew hG.stored (hview.sizes x hx rounds hrounds)
  · intro x hx
    rw [anticoneCount_extend (hl x hx) hl]
    exact hview.cluster x hx

omit D rank in
theorem acceptedBefore_insertBlock {lsp : List Hash}
    (hblues : ∀ y ∈ d.mergesetBlues, y ≠ b.hash) (hr : r ≠ b.hash) :
    (M.insertBlock b data).acceptedBefore d lsp r = M.acceptedBefore d lsp r := by
  rw [acceptedBefore]
  congr 1
  refine filter_congr fun y hy => ?_
  rw [key_insertBlock (hblues y hy), key_insertBlock hr]

/-- The reds of a colouring stay forced. -/
theorem forced_insertBlock {lsp : List Hash} (hblues : ∀ y ∈ d.mergesetBlues ++ lsp, y ≠ b.hash)
    (hreds : ∀ y ∈ d.mergesetReds, y ≠ b.hash)
    (hforced : ∀ r ∈ d.mergesetReds, ∃ x ∈ r :: M.acceptedBefore d lsp r,
      M.k < anticoneCount D (r :: M.acceptedBefore d lsp r) x) :
    ∀ r ∈ d.mergesetReds, ∃ x ∈ r :: (M.insertBlock b data).acceptedBefore d lsp r,
      (M.insertBlock b data).k < anticoneCount (D.extend b.hash b.parents hparent hps)
        (r :: (M.insertBlock b data).acceptedBefore d lsp r) x := by
  intro r hr
  obtain ⟨x, hx, hlt⟩ := hforced r hr
  have hmem : ∀ y ∈ r :: M.acceptedBefore d lsp r, y ≠ b.hash := by
    intro y hy
    obtain rfl | hy := mem_cons.mp hy
    · exact hreds y hr
    · refine hblues y (mem_append.mpr ?_)
      exact (mem_append.mp hy).imp_left mem_of_mem_filter
  rw [acceptedBefore_insertBlock (fun y hy => hblues y (mem_append_left _ hy)) (hreds r hr)]
  refine ⟨x, hx, ?_⟩
  rw [anticoneCount_extend (hmem x hx) hmem]
  exact hlt

theorem pairwise_key_insertBlock (hl : ∀ y ∈ l, y ≠ b.hash)
    (hsorted : l.Pairwise fun a c => M.key a < M.key c) :
    l.Pairwise fun a c => (M.insertBlock b data).key a < (M.insertBlock b data).key c := by
  refine List.Pairwise.imp_of_mem (fun {a c} ha hc hlt => ?_) hsorted
  rwa [key_insertBlock (hl a ha), key_insertBlock (hl c hc)]

/-- The mergeset of an old block is one of old blocks. -/
theorem Shape.ne_of_mem (hG : Grown M D rank) (hnew : ¬ M.Known b.hash) (hh : M.Known h)
    (hshape : Shape M D h d) (hx : x ∈ d.mergesetBlues.tail ++ d.mergesetReds) : x ≠ b.hash :=
  ne_of_known hnew (hG.known_of_reaches hh ((hshape.merged x).mp hx).1.reaches)

/-- The mergeset of an old block stays. -/
theorem Shape.insertBlock (hG : Grown M D rank) (hnew : ¬ M.Known b.hash) (hh : M.Known h)
    (hsp : M.Known d.selectedParent) (hshape : Shape M D h d) :
    Shape (M.insertBlock b data) (D.extend b.hash b.parents hparent hps) h d := by
  refine ⟨?_, hshape.head, fun x => ?_, hshape.nodup,
    pairwise_key_insertBlock (fun x hx => ?_) hshape.blues,
    pairwise_key_insertBlock (fun x hx => ?_) hshape.reds⟩
  · rw [parents_insertBlock, if_neg (ne_of_known hnew hh)]
    intro p hp q hq
    rw [inPast_extend (ne_of_known hnew (hG.closed hq))]
    exact hshape.antichain p hp q hq
  · rw [hshape.merged, inPast_extend (ne_of_known hnew hh), reaches_extend (ne_of_known hnew hsp)]
  · exact hshape.ne_of_mem hG hnew hh (mem_append_left _ hx)
  · exact hshape.ne_of_mem hG hnew hh (mem_append_right _ hx)

/-- The colouring of an old block stays. -/
theorem Coloured.insertBlock (hC : Clustered M D rank) (hnew : ¬ M.Known b.hash)
    (hd : M.ghostdagStore.get? h = some d) (hsp : d.selectedParent ≠ origin)
    (hcol : Coloured M D h d) :
    Coloured (M.insertBlock b data) (D.extend b.hash b.parents hparent hps) h d := by
  have hh : M.Known h := (hC.stored h).mpr ⟨d, hd⟩
  obtain ⟨d', lsp, hd', hblues, hforced⟩ := hcol.forced
  have hspKnown : M.Known d.selectedParent := (hC.stored _).mpr ⟨d', hd'⟩
  obtain ⟨lsp', hview⟩ := hC.view hd' hsp
  obtain rfl := hblues.unique hview.blues
  have hmerged := fun x => hcol.toShape.ne_of_mem (b := b) (x := x) hC.toGrown hnew hh
  refine ⟨hcol.toShape.insertBlock hC.toGrown hnew hh hspKnown, hcol.length, d', lsp,
    get?_insertBlock_of_get? hnew hC.stored hd', hblues.insertBlock hnew hC.stored,
    forced_insertBlock ?_ (fun x hx => hmerged x (mem_append_right _ hx)) hforced⟩
  intro y hy
  rw [hcol.head] at hy
  obtain hy | hy := mem_append.mp hy
  · obtain rfl | hy := mem_cons.mp hy
    · exact ne_of_known hnew hspKnown
    · exact hmerged y (mem_append_left _ hy)
  · exact ne_of_known hnew (hC.known_of_reaches hspKnown (hview.past y hy).reaches)

/-! ### A new block -/

/-- The selected parent of the new block. -/
theorem Drawn.selected {sp : Hash} {mergeset : List Hash}
    (hdrawn : Drawn M D b.parents sp mergeset data) (hnew : ¬ M.Known b.hash) :
    (M.insertBlock b data).Selected b.hash data := by
  have hparents : (M.insertBlock b data).parents b.hash = b.parents := by
    rw [parents_insertBlock, if_pos rfl]
  have hsp := hdrawn.divided.selectedParent
  exact selected_insertBlock hparents (fun p hp => ne_of_known hnew (hdrawn.parents.known p hp))
    (hsp ▸ hdrawn.mem) hdrawn.parents.origin_notMem (hsp ▸ hdrawn.best)

/-- The mergeset of the new block. -/
theorem Drawn.shape {sp : Hash} {mergeset : List Hash}
    (hdrawn : Drawn M D b.parents sp mergeset data) (hG : Grown M D rank)
    (hnew : ¬ M.Known b.hash) :
    Shape (M.insertBlock b data) (D.extend b.hash b.parents hparent hps) b.hash data := by
  have hdiv := hdrawn.divided
  have hmergeset : ∀ x ∈ mergeset, x ≠ b.hash := fun x hx => by
    obtain ⟨⟨p, hp, hxp⟩, -⟩ := (hdrawn.merged x).mp hx
    exact ne_of_known hnew (hG.known_of_reaches (hdrawn.parents.known p hp) hxp)
  have hspne : data.selectedParent ≠ b.hash :=
    hdiv.selectedParent.symm ▸ ne_of_known hnew (hdrawn.parents.known sp hdrawn.mem)
  have hnodup : mergeset.Nodup := hdrawn.sorted.imp fun hlt heq => hlt.ne (congrArg M.key heq)
  refine ⟨?_, hdiv.selectedParent.symm ▸ hdiv.head, fun x => ?_, hdiv.perm.nodup_iff.mpr hnodup,
    pairwise_key_insertBlock (fun y hy => hmergeset y (hdiv.blues.subset hy))
      (hdrawn.sorted.sublist hdiv.blues),
    pairwise_key_insertBlock (fun y hy => hmergeset y (hdiv.reds.subset hy))
      (hdrawn.sorted.sublist hdiv.reds)⟩
  · rw [parents_insertBlock, if_pos rfl]
    intro p hp q hq
    rw [inPast_extend (ne_of_known hnew (hdrawn.parents.known q hq))]
    exact hdrawn.parents.antichain p hp q hq
  · rw [hdiv.perm.mem_iff, hdrawn.merged, Merged, inPast_extend_new, reaches_extend hspne,
      hdiv.selectedParent]

section NewBlock

variable {sp : Hash} {lsp mergeset : List Hash}
  (hm : Merging M D rank b.parents sp lsp) (hnew : ¬ M.Known b.hash)
  (hcol : Colouring M D rank sp lsp mergeset data)
  (hmem : ∀ x, x ∈ mergeset ↔ Merged D sp b.parents x)
include hm hnew hcol hmem

theorem ne_of_mem_blues (hx : x ∈ data.mergesetBlues ++ lsp) : x ≠ b.hash :=
  ne_of_known hnew (hm.known_of_mem_blues hcol (fun x hx => (hmem x).mp hx) hx)

/-- The blues of the new block. -/
theorem blueView_new (hsorted : mergeset.Pairwise fun a c => M.key a < M.key c) :
    BlueView (M.insertBlock b data) (D.extend b.hash b.parents hparent hps)
      (update rank b.hash M.relationsStore.size) b.hash data
      (data.mergesetBlues ++ lsp) := by
  obtain ⟨d, hd, hview⟩ := hm.view
  have hG := hm.clustered.toGrown
  have hne : ∀ x ∈ data.mergesetBlues ++ lsp, x ≠ b.hash := fun x hx =>
    ne_of_mem_blues hm hnew hcol hmem hx
  have hrank := hG.rank_size (hm.parents.known sp hm.mem)
  refine ⟨.chain (hcol.selectedParent.symm ▸ hm.sp_ne_origin)
    (hcol.selectedParent.symm ▸ get?_insertBlock_of_get? hnew hG.stored hd)
    (hview.blues.insertBlock hnew hG.stored),
    hm.nodup_blues hcol hsorted fun x hx => (hmem x).mp hx, ?_, ?_, ?_⟩
  · intro x hx
    exact inPast_extend_new.mpr (hm.reaches_of_mem_blues hcol (fun x hx => (hmem x).mp hx) hx)
  · intro x hx rounds hrounds
    rw [update_self] at hrounds
    rw [anticoneCount_extend (hne x hx) hne, hcol.selectedParent]
    exact findAnticoneSize_insertBlock hnew hG.stored (hcol.sizes x hx rounds (by omega))
  · intro x hx
    rw [anticoneCount_extend (hne x hx) hne]
    exact hcol.cluster x hx

/-- The colouring of the new block. -/
theorem coloured_new {sp' : Hash} {mergeset' : List Hash}
    (hdrawn : Drawn M D b.parents sp' mergeset' data) :
    Coloured (M.insertBlock b data) (D.extend b.hash b.parents hparent hps) b.hash data := by
  obtain ⟨d, hd, hview⟩ := hm.view
  have hG := hm.clustered.toGrown
  refine ⟨hdrawn.shape hG hnew, hcol.length, d, lsp,
    hcol.selectedParent.symm ▸ get?_insertBlock_of_get? hnew hG.stored hd,
    hview.blues.insertBlock hnew hG.stored,
    forced_insertBlock (fun y hy => ne_of_mem_blues hm hnew hcol hmem hy)
      (fun y hy => ?_) hcol.forced⟩
  exact ne_of_known hnew (hm.known_of_merged ((hmem y).mp (hcol.reds.subset hy)))

end NewBlock

/-- The stores still are those of a grown DAG. -/
theorem Grown.insertBlock (hG : Grown M D rank) (hnew : ¬ M.Known b.hash)
    (hknown : ∀ p ∈ b.parents, M.Known p) (hsel : (M.insertBlock b data).Selected b.hash data) :
    Grown (M.insertBlock b data) (D.extend b.hash b.parents hparent hps)
      (update rank b.hash M.relationsStore.size) where
  parents := by
    funext x
    rw [parents_extend, parents_insertBlock, hG.parents]
  stored x := by
    rw [known_insertBlock, get?_insertBlock, hG.stored]
    by_cases hx : x = b.hash
    · simp [hx]
    · simp [hx]
  closed {h p} hp := by
    rw [parents_insertBlock] at hp
    rw [known_insertBlock]
    split at hp
    · exact .inr (hknown p hp)
    · exact .inr (hG.closed hp)
  origin := by
    rw [GhostdagManager.insertBlock, get?_insert_of_ne, hG.origin]
    exact ne_of_known hnew ⟨[], hG.origin⟩
  genesis := by
    rw [GhostdagManager.insertBlock, get?_insert_of_ne, hG.genesis]
    exact ne_of_known hnew ⟨_, hG.genesis⟩
  genesisData := get?_insertBlock_of_get? hnew hG.stored hG.genesisData
  rank_lt h p hp := by
    rw [parents_insertBlock] at hp
    split at hp
    · next heq =>
      rw [heq, update_self, update_of_ne (ne_of_known hnew (hknown p hp))]
      exact hG.rank_size (hknown p hp)
    · next hne =>
      rw [update_of_ne hne, update_of_ne (ne_of_known hnew (hG.closed hp))]
      exact hG.rank_lt h p hp
  rank_size {h} hh := by
    rw [size_insertBlock hnew]
    obtain rfl | hh := known_insertBlock.mp hh
    · rw [update_self]
      exact Nat.lt_succ_self _
    · rw [update_of_ne (ne_of_known hnew hh)]
      exact Nat.lt_succ_of_lt (hG.rank_size hh)
  selected {h d} hd hne hgenesis := by
    rw [get?_insertBlock] at hd
    split at hd
    · next heq =>
      cases hd
      exact heq ▸ hsel
    · next hneb =>
      have hold := hG.selected hd hne hgenesis
      have hparents : (M.insertBlock b data).parents h = M.parents h := by
        rw [parents_insertBlock, if_neg hneb]
      exact selected_insertBlock hparents (fun p hp => ne_of_known hnew (hG.closed hp)) hold.mem
        hold.origin_notMem hold.best

/-- **A new block** keeps a DAG with its mergesets. -/
theorem Outlined.insertBlock (hO : Outlined M D rank) (hnew : ¬ M.Known b.hash)
    (hparents : NewParents M D b.parents) (hdata : M.ghostdag b.parents = some data) :
    Outlined (M.insertBlock b data) (D.extend b.hash b.parents hparent hps)
      (update rank b.hash M.relationsStore.size) := by
  obtain ⟨sp, mergeset, hdrawn⟩ := hO.drawn hparents hdata
  refine ⟨hO.toGrown.insertBlock hnew hparents.known (hdrawn.selected hnew), ?_⟩
  intro h d hd hne hgenesis
  rw [get?_insertBlock] at hd
  split at hd
  · next heq =>
    cases hd
    exact heq ▸ hdrawn.shape hO.toGrown hnew
  · exact (hO.shape hd hne hgenesis).insertBlock hO.toGrown hnew ((hO.stored h).mpr ⟨d, hd⟩)
      (hO.closed (hO.selected hd hne hgenesis).mem)

/-- Blue work goes on rising if it does so at the new block. -/
theorem Rising.insertBlock (hR : M.Rising) (hG : Grown M D rank) (hnew : ¬ M.Known b.hash)
    (hknown : M.Known data.selectedParent)
    (hwork : M.blueWork data.selectedParent < data.blueWork) :
    (M.insertBlock b data).Rising := by
  intro h d hd hne hgenesis
  rw [get?_insertBlock] at hd
  split at hd
  · cases hd
    rwa [blueWork_insertBlock (ne_of_known hnew hknown)]
  · rw [blueWork_insertBlock (ne_of_known hnew (hG.closed (hG.selected hd hne hgenesis).mem))]
    exact hR h d hd hne hgenesis

/-- **A new block** keeps a DAG well coloured. -/
theorem Painted.insertBlock (hP : Painted M D rank) (hnew : ¬ M.Known b.hash)
    (hparents : NewParents M D b.parents) (hfits : M.WorkFits b.parents)
    (hdata : M.ghostdag b.parents = some data) :
    Painted (M.insertBlock b data) (D.extend b.hash b.parents hparent hps)
      (update rank b.hash M.relationsStore.size) := by
  obtain ⟨sp, lsp, mergeset, hm, hcol, hsorted, hmem, hwork⟩ :=
    hP.toClustered.of_ghostdag hparents hfits hdata
  obtain ⟨sp', mergeset', hdrawn⟩ := hP.drawn hparents hdata
  have hsp := hcol.selectedParent
  refine ⟨⟨hP.toGrown.insertBlock hnew hparents.known (hdrawn.selected hnew),
    hP.rising.insertBlock hP.toGrown hnew (hsp ▸ hparents.known sp hm.mem) (hsp ▸ hwork), ?_⟩, ?_⟩
  · intro h d hd hne
    rw [get?_insertBlock] at hd
    split at hd
    · next heq =>
      cases hd
      rw [heq]
      exact ⟨_, blueView_new hm hnew hcol hmem hsorted⟩
    · obtain ⟨l, hview⟩ := hP.view hd hne
      exact ⟨l, hview.insertBlock hP.toGrown hnew ((hP.stored h).mpr ⟨d, hd⟩)⟩
  · intro h d hd hne hgenesis
    rw [get?_insertBlock] at hd
    split at hd
    · next heq =>
      cases hd
      exact heq ▸ coloured_new hm hnew hcol hmem hdrawn
    · obtain ⟨-, -, hsp, -⟩ := hP.exists_selectedParent hd hne hgenesis
      exact (hP.coloured hd hne hgenesis).insertBlock hP.toClustered hnew hd hsp

end Extend

/-! ### Runs -/

/-- No parent is in the past of another one. -/
def UnrelatedParents (M : GhostdagManager) (ps : List Hash) : Prop :=
  ∀ p ∈ ps, ∀ q ∈ ps, p ≠ q → M.isDagAncestorOf p q = some false

instance (M : GhostdagManager) (ps : List Hash) : Decidable (M.UnrelatedParents ps) :=
  @List.decidableBAll _ _ (fun _ => decidableBAll _ ps) ps

theorem Grown.antichain (hG : Grown M D rank) (hknown : ∀ p ∈ ps, M.Known p)
    (hps : M.UnrelatedParents ps) : ∀ p ∈ ps, ∀ q ∈ ps, ¬ D.InPast p q := by
  intro p hp q hq hpast
  have hanc := hps p hp q hq hpast.ne
  rw [hG.isDagAncestorOf_eq (hknown p hp) (hknown q hq), decide_eq_true hpast.reaches] at hanc
  cases hanc

/-- Parents that a block could be coloured with are stored. -/
theorem known_of_ghostdag (hG : Grown M D rank) (hdata : M.ghostdag ps = some data) :
    ps ≠ [] ∧ ∀ p ∈ ps, M.Known p := by
  rw [ghostdag] at hdata
  split at hdata
  · cases hdata
  · next hempty =>
    obtain ⟨sp, hsp, -⟩ := Option.bind_eq_some_iff.mp hdata
    obtain ⟨keys, hkeys, -⟩ := Option.bind_eq_some_iff.mp hsp
    refine ⟨by simpa using hempty, fun p hp => ?_⟩
    obtain ⟨key, hkey⟩ := exists_of_mapM_eq_some hkeys hp
    obtain ⟨d, hd, -⟩ := Option.map_eq_some_iff.mp hkey
    exact (hG.stored p).mpr ⟨d, hd⟩

/-- The parts of a step of a run. -/
theorem Grown.of_addBlock (hG : Grown M D rank) {M' : GhostdagManager}
    (hadd : M.addBlock b = some M') (hps : M.UnrelatedParents b.parents) :
    ∃ data, M.ghostdag b.parents = some data ∧ M' = M.insertBlock b data ∧ ¬ M.Known b.hash ∧
      NewParents M D b.parents ∧ (∀ y, b.hash ∉ D.parents y) ∧ b.hash ∉ b.parents := by
  rw [GhostdagManager.addBlock] at hadd
  split at hadd
  · cases hadd
  · next hguard =>
    rw [Bool.or_eq_true, not_or, contains_eq_true, contains_iff_mem] at hguard
    obtain ⟨hnew, horigin⟩ := hguard
    obtain ⟨data, hdata, rfl⟩ := Option.map_eq_some_iff.mp hadd
    obtain ⟨hne, hknown⟩ := known_of_ghostdag hG hdata
    exact ⟨data, hdata, rfl, hnew, ⟨hne, hknown, horigin, hG.antichain hknown hps⟩,
      fun y hy => hnew (hG.closed (hG.parents ▸ hy)), fun hb => hnew (hknown b.hash hb)⟩

/-- **A step of a run.** -/
theorem Outlined.addBlock (hO : Outlined M D rank) {M' : GhostdagManager}
    (hadd : M.addBlock b = some M') (hps : M.UnrelatedParents b.parents) :
    ∃ D' rank', Outlined M' D' rank' := by
  obtain ⟨data, hdata, rfl, hnew, hparents, hparent, hself⟩ := hO.of_addBlock hadd hps
  exact ⟨D.extend b.hash b.parents hparent hself, _, hO.insertBlock hnew hparents hdata⟩

/-- **A step of a run** without overflow. -/
theorem Painted.addBlock (hP : Painted M D rank) {M' : GhostdagManager}
    (hadd : M.addBlock b = some M') (hps : M.UnrelatedParents b.parents)
    (hfits : M.WorkFits b.parents) : ∃ D' rank', Painted M' D' rank' := by
  obtain ⟨data, hdata, rfl, hnew, hparents, hparent, hself⟩ := hP.of_addBlock hadd hps
  exact ⟨D.extend b.hash b.parents hparent hself, _, hP.insertBlock hnew hparents hfits hdata⟩

section Init

variable {genesisHash : Hash} {genesis_ne : genesisHash ≠ origin} {genesis : Header}
  {k : ℕ} {k_lt : k + 1 < 2 ^ 16} {level : ℕ} {levelWork : ℕ → ℕ} {M : GhostdagManager}
  (hM : M = init genesisHash genesis_ne genesis k k_lt level levelWork)
include hM

theorem relations_init (x : Hash) : M.relationsStore.get? x
    = if x = genesisHash then some [origin] else if x = origin then some [] else none := by
  rw [hM, init, get?_insert, get?_insert, get?_empty]

theorem ghostdagStore_init (x : Hash) : M.ghostdagStore.get? x
    = if x = genesisHash then some genesisGhostdagData
      else if x = origin then some originGhostdagData else none := by
  rw [hM, init, get?_insert, get?_insert, get?_empty]

/-- Nothing is stored above genesis. -/
theorem not_stored_init (hd : M.ghostdagStore.get? h = some d) (hne : h ≠ origin) :
    h = M.genesisHash := by
  by_contra hgenesis
  subst hM
  rw [ghostdagStore_init rfl, if_neg (show h ≠ genesisHash from hgenesis), if_neg hne] at hd
  cases hd

theorem size_init : M.relationsStore.size = 2 := by
  have hnone : (empty.insert origin ([] : List Hash)).get? genesisHash = none := by
    rw [get?_insert_of_ne _ _ genesis_ne, get?_empty]
  rw [hM]
  exact (perm_entries_insert [origin] hnone).length_eq

/-- The stores of genesis alone. -/
theorem grown_init : ∃ D, Grown M D fun h => if h = genesisHash then 1 else 0 := by
  have hrel := relations_init hM
  have hstore := ghostdagStore_init hM
  have hparents : ∀ x, M.parents x = if x = genesisHash then [origin] else [] := by
    intro x
    rw [GhostdagManager.parents, hrel]
    split_ifs <;> rfl
  have hgenesis : M.genesisHash = genesisHash := by rw [hM, init]
  have hedges : ∀ b, genesisHash ∉ (empty : Dag Hash).parents b := fun _ => not_mem_nil
  refine ⟨empty.extend genesisHash [origin] hedges
    (fun hmem => genesis_ne (mem_singleton.mp hmem)), ?_⟩
  refine ⟨?_, ?_, ?_, ?_, ?_, ?_, ?_, ?_, ?_⟩
  · funext x
    rw [parents_extend, hparents]
    rfl
  · intro x
    rw [Known, hrel, hstore]
    split_ifs <;> simp
  · intro h p hp
    rw [hparents] at hp
    split at hp
    · rw [mem_singleton.mp hp]
      exact ⟨[], by rw [hrel, if_neg genesis_ne.symm, if_pos rfl]⟩
    · cases hp
  · rw [hrel, if_neg genesis_ne.symm, if_pos rfl]
  · rw [hrel, hgenesis, if_pos rfl]
  · rw [hstore, hgenesis, if_pos rfl]
  · intro h p hp
    rw [hparents] at hp
    split at hp
    · next heq =>
      rw [mem_singleton.mp hp, if_neg genesis_ne.symm, if_pos heq]
      exact Nat.zero_lt_one
    · cases hp
  · intro h _
    rw [size_init hM]
    split <;> omega
  · exact fun hd hne hneg => absurd (not_stored_init hM hd hne) hneg

theorem outlined_init : ∃ D rank, Outlined M D rank := by
  obtain ⟨D, hG⟩ := grown_init hM
  exact ⟨D, _, hG, fun hd hne hneg => absurd (not_stored_init hM hd hne) hneg⟩

/-- Genesis alone is well coloured. -/
theorem painted_init : ∃ D rank, Painted M D rank := by
  obtain ⟨D, hG⟩ := grown_init hM
  refine ⟨D, _, ⟨hG, fun h d hd hne hneg => absurd (not_stored_init hM hd hne) hneg, ?_⟩,
    fun hd hne hneg => absurd (not_stored_init hM hd hne) hneg⟩
  intro h d hd hne
  rw [not_stored_init hM hd hne] at hd
  obtain rfl := Option.mem_unique hG.genesisData hd
  exact ⟨[], .genesis rfl, nodup_nil, nofun, nofun, nofun⟩

end Init

/-- The DAG grew from genesis by blocks that each met a condition when its turn came. -/
def GrewBy (C : GhostdagManager → NewBlock → Prop) (M : GhostdagManager) : Prop :=
  ∃ (genesisHash : Hash) (genesis_ne : genesisHash ≠ origin) (genesis : Header) (k : ℕ)
    (k_lt : k + 1 < 2 ^ 16) (level : ℕ) (levelWork : ℕ → ℕ) (blocks : List NewBlock),
    (init genesisHash genesis_ne genesis k k_lt level levelWork).addBlocks blocks = some M ∧
    ∀ before b after N, blocks = before ++ b :: after →
      (init genesisHash genesis_ne genesis k k_lt level levelWork).addBlocks before = some N → C N b

/-- **A run** has what genesis alone has and each step keeps. -/
theorem GrewBy.invariant {C : GhostdagManager → NewBlock → Prop} {I : GhostdagManager → Prop}
    (hM : M.GrewBy C)
    (hinit : ∀ {genesisHash genesis_ne genesis k k_lt level levelWork},
      I (init genesisHash genesis_ne genesis k k_lt level levelWork))
    (hstep : ∀ {N N' b}, I N → C N b → N.addBlock b = some N' → I N') : I M := by
  obtain ⟨_, _, _, _, _, _, _, blocks, hrun, hsteps⟩ := hM
  exact foldlM_invariant hinit hstep hsteps hrun

/-- A block DAG: it grew from genesis by blocks with unrelated parents. -/
def IsBlockDag (M : GhostdagManager) : Prop :=
  M.GrewBy fun N b => N.UnrelatedParents b.parents

/-- A block DAG in which no sum of works ever reached `2 ^ 192`. -/
def IsBoundedDag (M : GhostdagManager) : Prop :=
  M.GrewBy fun N b => N.UnrelatedParents b.parents ∧ N.WorkFits b.parents

theorem IsBoundedDag.isBlockDag (hM : M.IsBoundedDag) : M.IsBlockDag := by
  obtain ⟨_, _, _, _, _, _, _, blocks, hrun, hsteps⟩ := hM
  exact ⟨_, _, _, _, _, _, _, blocks, hrun, fun before b after N hsplit hN =>
    (hsteps before b after N hsplit hN).1⟩

/-- **A block DAG** without overflow is well coloured. -/
theorem IsBoundedDag.painted (hM : M.IsBoundedDag) : ∃ D rank, Painted M D rank :=
  hM.invariant (I := fun M => ∃ D rank, Painted M D rank) (painted_init rfl)
    fun ⟨_, _, hP⟩ hstep hadd => hP.addBlock hadd hstep.1 hstep.2

/-! ### What a run guarantees -/

/-- The blues of a block from those of its selected parent. -/
theorem Blues.step {d' : GhostdagData} {sp : Hash} {blues : List Hash} (hl : M.Blues d' l)
    (hblues : d.mergesetBlues = blues) (hsp : d.selectedParent = sp) (hne : sp ≠ origin)
    (hd' : M.ghostdagStore.get? sp = some d') : M.Blues d (blues ++ l) :=
  hblues ▸ .chain (hsp ▸ hne) (hsp ▸ hd') hl

/-- The blue set of a colouring. -/
def blueSet (M : GhostdagManager) (d : GhostdagData) : Set Hash :=
  {x | ∃ l, M.Blues d l ∧ x ∈ l}

/-- The blues accepted before a merged block came up: the blue set of the selected parent, the
selected parent, and the merged blues that come before it. -/
def acceptedBlues (M : GhostdagManager) (d : GhostdagData) (r : Hash) : Set Hash :=
  {x | (x ∈ d.mergesetBlues ∧ (x = d.selectedParent ∨ M.key x < M.key r)) ∨
    ∃ d', M.ghostdagStore.get? d.selectedParent = some d' ∧ x ∈ M.blueSet d'}

section Guarantees

theorem blueSet_eq (hl : M.Blues d l) : M.blueSet d = {x | x ∈ l} := by
  ext x
  constructor
  · rintro ⟨l', hl', hx⟩
    exact hl.unique hl' ▸ hx
  · exact fun hx => ⟨l, hl, hx⟩

theorem acceptedBlues_eq {d' : GhostdagData} {lsp : List Hash}
    (hd' : M.ghostdagStore.get? d.selectedParent = some d') (hlsp : M.Blues d' lsp) :
    insert r (M.acceptedBlues d r) = {x | x ∈ r :: M.acceptedBefore d lsp r} := by
  ext x
  have hsp : (∃ d', M.ghostdagStore.get? d.selectedParent = some d' ∧ x ∈ M.blueSet d') ↔
      x ∈ lsp := by
    simp [hd', blueSet_eq hlsp]
  simp [acceptedBlues, acceptedBefore, hsp]

variable (hP : Painted M D rank)
include hP

section

variable (hd : M.ghostdagStore.get? h = some d)
include hd

/-- The blue set of a block is a cluster, and the sizes found are exact. -/
theorem Painted.cluster (hne : h ≠ Ghostdag.origin) :
    IsCluster D.Anticone M.k (M.blueSet d) ∧
      ∀ x ∈ M.blueSet d, M.blueAnticoneSize x d = some (degree D.Anticone (M.blueSet d) x) := by
  obtain ⟨l, hview⟩ := hP.view hd hne
  have hrank := hP.rank_size ((hP.stored h).mpr ⟨d, hd⟩)
  rw [blueSet_eq hview.blues]
  refine ⟨fun x hx => ?_, fun x hx => ?_⟩
  · rw [degree_eq_countP hview.nodup]
    exact hview.cluster x hx
  · rw [degree_eq_countP hview.nodup]
    exact hview.sizes x hx _ hrank.le

/-- The blues accepted before a red block and the block itself are distinct. -/
theorem Painted.nodup_acceptedBefore (hne : h ≠ Ghostdag.origin) (hgenesis : h ≠ M.genesisHash)
    {d' : GhostdagData} {lsp : List Hash} (hd' : M.ghostdagStore.get? d.selectedParent = some d')
    (hlsp : M.Blues d' lsp) (hr : r ∈ d.mergesetReds) :
    (r :: M.acceptedBefore d lsp r).Nodup := by
  have hcol := hP.coloured hd hne hgenesis
  obtain ⟨-, -, hsp, -⟩ := hP.exists_selectedParent hd hne hgenesis
  obtain ⟨l, hview⟩ := hP.view hd hne
  obtain ⟨lsp', hviewSp⟩ := hP.view hd' hsp
  obtain rfl := hlsp.unique hviewSp.blues
  obtain rfl := hview.blues.unique (.chain hsp hd' hlsp)
  have hout := ((hcol.merged r).mp (mem_append_right _ hr)).2
  refine nodup_cons.mpr ⟨fun hmem => ?_, hview.nodup.sublist ?_⟩
  · obtain hmem | hmem := mem_append.mp hmem
    · have hblue := mem_of_mem_filter hmem
      rw [hcol.head] at hblue
      obtain heq | hblue := mem_cons.mp hblue
      · exact hout (heq ▸ Dag.Reaches.refl r)
      · exact (nodup_append.mp hcol.nodup).2.2 r hblue r hr rfl
    · exact hout (hviewSp.past r hmem).reaches
  · exact filter_sublist.append_right lsp

/-- A red block would have left some blue block with too many blues in its anticone. -/
theorem Painted.red_forced (hne : h ≠ Ghostdag.origin) (hgenesis : h ≠ M.genesisHash)
    (hr : r ∈ d.mergesetReds) :
    ∃ x ∈ insert r (M.acceptedBlues d r),
      M.k < degree D.Anticone (insert r (M.acceptedBlues d r)) x := by
  obtain ⟨d', lsp, hd', hlsp, hforced⟩ := (hP.coloured hd hne hgenesis).forced
  obtain ⟨x, hx, hlt⟩ := hforced r hr
  rw [acceptedBlues_eq hd' hlsp]
  refine ⟨x, hx, ?_⟩
  rwa [degree_eq_countP (hP.nodup_acceptedBefore hd hne hgenesis hd' hlsp hr)]

end

end Guarantees

/-- **GHOSTDAG keeps a maximal cluster.** In every DAG built block by block, each with parents none
of which is in the past of another and with accumulated work below `2 ^ 192`: the blue set of every
block has at most `k` members in the anticone of each member, the size found for a member is exact,
the mergeset has at most `k + 1` blues, it holds what the block has in its past beyond its selected
parent, and a block of it is red only if it would have left some blue block with more than `k` blues
in its anticone. A further mergeset is always coloured without a panic. -/
theorem ghostdag_cluster (M : GhostdagManager) (hM : M.IsBoundedDag) :
    ∃ D : Dag Hash, D.parents = M.parents ∧
    (∀ h d, M.ghostdagStore.get? h = some d → h ≠ origin →
      IsCluster D.Anticone M.k (M.blueSet d) ∧
      (∀ x ∈ M.blueSet d, M.blueAnticoneSize x d = some (degree D.Anticone (M.blueSet d) x)) ∧
      d.mergesetBlues.length ≤ M.k + 1 ∧
      (h ≠ M.genesisHash → ∀ x, x ∈ d.mergesetBlues.tail ∨ x ∈ d.mergesetReds ↔
        D.InPast x h ∧ ¬ D.Reaches x d.selectedParent) ∧
      ∀ r ∈ d.mergesetReds, ∃ x ∈ insert r (M.acceptedBlues d r),
        M.k < degree D.Anticone (insert r (M.acceptedBlues d r)) x) ∧
    ∀ ps, ps ≠ [] → (∀ p ∈ ps, M.Known p) → origin ∉ ps → M.UnrelatedParents ps →
      ∃ sp data, M.findSelectedParent ps = some sp ∧ M.colourMergeset sp ps = some data := by
  obtain ⟨D, rank, hP⟩ := hM.painted
  refine ⟨D, hP.parents, fun h d hd hne => ?_, fun ps hps hknown horigin hun => ?_⟩
  swap
  · obtain ⟨sp, lsp, hselect, hm⟩ :=
      hP.exists_merging ⟨hps, hknown, horigin, hP.antichain hknown hun⟩
    obtain ⟨-, data, hdata, -⟩ := hm.colourMergeset_eq
    exact ⟨sp, data, hselect, hdata⟩
  obtain ⟨hcluster, hsizes⟩ := hP.cluster hd hne
  refine ⟨hcluster, hsizes, ?_⟩
  by_cases hgenesis : h = M.genesisHash
  · -- Genesis merges nothing.
    subst hgenesis
    obtain rfl := Option.mem_unique hP.genesisData hd
    exact ⟨Nat.zero_le _, fun hne => absurd rfl hne, nofun⟩
  · have hcol := hP.coloured hd hne hgenesis
    refine ⟨hcol.length, fun _ x => ?_, fun r hr => hP.red_forced hd hne hgenesis hr⟩
    rw [← mem_append, hcol.merged]

/-- A header of a fixed target. -/
def sampleHeader : Header := { target := 2 ^ 250 }

theorem one_ne_origin : (1 : Hash) ≠ origin := by decide +kernel

/-- A DAG of genesis alone, with a bound on blue anticones. -/
def genesisOf (genesis : Header) (k : ℕ) (k_lt : k + 1 < 2 ^ 16) : GhostdagManager :=
  init 1 one_ne_origin genesis k k_lt 0 fun _ => 0

/-- A run on fixed blocks, checked block by block. -/
theorem grewBy_of_check {C : GhostdagManager → NewBlock → Prop} [∀ N b, Decidable (C N b)]
    {genesis : Header} {k : ℕ} {k_lt : k + 1 < 2 ^ 16} {blocks : List NewBlock}
    (hrun : (genesisOf genesis k k_lt).addBlocks blocks = some M)
    (hcheck : checkSteps GhostdagManager.addBlock C (genesisOf genesis k k_lt) blocks = true) :
    M.GrewBy C :=
  ⟨1, one_ne_origin, genesis, k, k_lt, 0, fun _ => 0, blocks, hrun, forall_steps_of_check hcheck⟩

/-- Genesis with the target of all sample blocks. -/
def sampleGenesis (k : ℕ) (k_lt : k + 1 < 2 ^ 16) : GhostdagManager :=
  genesisOf sampleHeader k k_lt

/-- Three blocks on genesis, and a block that merges them. -/
def fork : List NewBlock :=
  [⟨2, sampleHeader, [1]⟩, ⟨3, sampleHeader, [1]⟩, ⟨4, sampleHeader, [1]⟩,
    ⟨5, sampleHeader, [2, 3, 4]⟩]

/-- The fork is a block DAG without overflow. -/
theorem isBoundedDag_fork (hrun : (sampleGenesis 1 (by decide)).addBlocks fork = some M) :
    M.IsBoundedDag :=
  grewBy_of_check hrun (by decide +kernel)

/-- With `k = 1` one of the three merged blocks is red, and the blue set is a cluster. -/
theorem ghostdag_cluster_fork :
    ∃ M d, (sampleGenesis 1 (by decide)).addBlocks fork = some M ∧
      M.ghostdagStore.get? 5 = some d ∧ d.mergesetBlues = [4, 2] ∧ d.mergesetReds = [3] ∧
      ∃ D : Dag Hash, D.parents = M.parents ∧ IsCluster D.Anticone M.k (M.blueSet d) := by
  have hsome : ∃ M ∈ (sampleGenesis 1 (by decide)).addBlocks fork, ∃ d ∈ M.ghostdagStore.get? 5,
      d.mergesetBlues = [4, 2] ∧ d.mergesetReds = [3] := by
    decide +kernel
  obtain ⟨M, hrun, d, hd, hblues, hreds⟩ := hsome
  obtain ⟨D, hD, hall, -⟩ := ghostdag_cluster M (isBoundedDag_fork hrun)
  exact ⟨M, d, hrun, hd, hblues, hreds, D, hD, (hall 5 d hd (by decide +kernel)).1⟩

/-- **Blue work orders the DAG**: in every such DAG a block has more blue work than every block in
its past but the origin. -/
theorem blueWork_lt_of_past (M : GhostdagManager) (hM : M.IsBoundedDag) (D : Dag Hash)
    (hD : D.parents = M.parents) (a b : Hash) (hpast : D.InPast a b) (hne : a ≠ origin) :
    M.blueWork a < M.blueWork b := by
  obtain ⟨D', rank, hP⟩ := hM.painted
  obtain rfl : D' = D := Dag.ext (hP.parents.trans hD.symm)
  exact hP.blueWork_lt_of_inPast hP.rising hpast hne

/-- Genesis is in the past of the block that merges the fork, two edges below it. -/
theorem blueWork_lt_of_past_fork : ∃ M, (sampleGenesis 1 (by decide)).addBlocks fork = some M ∧
    M.blueWork 1 < M.blueWork 5 := by
  have hsome : ∃ M ∈ (sampleGenesis 1 (by decide)).addBlocks fork,
      1 ∈ M.parents 2 ∧ 2 ∈ M.parents 5 := by decide +kernel
  obtain ⟨M, hrun, h₂, h₅⟩ := hsome
  obtain ⟨D, rank, hP⟩ := (isBoundedDag_fork hrun).painted
  refine ⟨M, hrun, blueWork_lt_of_past M (isBoundedDag_fork hrun) D hP.parents 1 5 ?_
    one_ne_origin⟩
  rw [← hP.parents] at h₂ h₅
  exact .tail (.single h₂) h₅

/-! ### Redundant parents and overflow -/

/-- A block on genesis, and a block that names both as parents. -/
def redundantParent : List NewBlock :=
  [⟨2, sampleHeader, [1]⟩, ⟨3, sampleHeader, [2, 1]⟩]

/-- The header with bits `0x09010000`: the works of two such blocks do not fit 192 bits. -/
def heavyHeader : Header := { target := 2 ^ 64 }

/-- A heavy block 2 on a heavy genesis, whose child 3 has less blue work than 2; a chain of 4 and 5
beside them, and a block that merges both branches. -/
def overflow : List NewBlock :=
  [⟨2, heavyHeader, [1]⟩, ⟨3, sampleHeader, [2]⟩, ⟨4, sampleHeader, [1]⟩, ⟨5, sampleHeader, [4]⟩,
    ⟨6, sampleHeader, [3, 5]⟩]

/-- Genesis is in the past of the other parent, yet it is merged as if it were in its anticone: the
size found for that parent is one, and no blue block is in its anticone. -/
theorem counts_redundant_parent :
    ∃ M d, (sampleGenesis 2 (by decide)).addBlocks redundantParent = some M ∧
      M.ghostdagStore.get? 3 = some d ∧ 2 ∈ M.blueSet d ∧ M.blueAnticoneSize 2 d = some 1 ∧
      ∀ D : Dag Hash, D.parents = M.parents → degree D.Anticone (M.blueSet d) 2 = 0 := by
  have hsome : ∃ M ∈ (sampleGenesis 2 (by decide)).addBlocks redundantParent, M.parents 2 = [1] ∧
      (∃ d ∈ M.ghostdagStore.get? 1, d.mergesetBlues = [] ∧ d.selectedParent = origin) ∧
      (∃ d ∈ M.ghostdagStore.get? 2, d.mergesetBlues = [1] ∧ d.selectedParent = 1) ∧
      ∃ d ∈ M.ghostdagStore.get? 3, d.mergesetBlues = [2, 1] ∧ d.selectedParent = 2 ∧
        M.blueAnticoneSize 2 d = some 1 := by
    decide +kernel
  obtain ⟨M, hrun, hparents, ⟨d₁, hd₁, hblues₁, hsp₁⟩, ⟨d₂, hd₂, hblues₂, hsp₂⟩,
    d, hd, hblues, hsp, hsize⟩ := hsome
  have hl₁ : M.Blues d₁ [] := hblues₁ ▸ .genesis hsp₁
  have hl₂ : M.Blues d₂ [1] := hl₁.step hblues₂ hsp₂ one_ne_origin hd₁
  have hl : M.Blues d [2, 1, 1] := hl₂.step hblues hsp (by decide +kernel) hd₂
  refine ⟨M, d, hrun, hd, ⟨_, hl, mem_cons_self⟩, hsize, fun D hD => ?_⟩
  -- The blue set is the parent and genesis, and the parent reaches both.
  have hedge : D.Reaches 1 2 := .of_parent (by rw [hD, hparents]; exact mem_singleton_self 1)
  rw [blueSet_eq hl, degree, Set.ncard_eq_zero (Set.toFinite _), Set.eq_empty_iff_forall_notMem]
  rintro y ⟨hy, hforward, hback⟩
  have hcases : y = 2 ∨ y = 1 := by
    simpa [or_assoc] using hy
  obtain rfl | rfl := hcases
  · exact hback (.refl 2)
  · exact hback hedge

/-- Two branches of two blocks on a common block. -/
theorem isCluster_of_branches {D : Dag Hash} {S : Set Hash} {a b c b' c' : Hash}
    (hab : D.Reaches a b) (hbc : D.Reaches b c) (hab' : D.Reaches a b') (hbc' : D.Reaches b' c')
    (hS : ∀ x ∈ S, x = a ∨ x ∈ [b, c] ∨ x ∈ [b', c']) : IsCluster D.Anticone 2 S := by
  have hpair : ∀ {b c x y}, D.Reaches b c → x ∈ [b, c] → y ∈ [b, c] → ¬ D.Anticone x y := by
    intro b c x y hbc hx hy hanti
    rw [mem_pair] at hx hy
    obtain rfl | rfl := hx <;> obtain rfl | rfl := hy
    · exact hanti.1 (.refl _)
    · exact hanti.1 hbc
    · exact hanti.2 hbc
    · exact hanti.1 (.refl _)
  have hroot : ∀ x ∈ S, D.Reaches a x := by
    intro x hx
    obtain rfl | hx | hx := hS x hx
    · exact .refl x
    · obtain rfl | rfl := mem_pair.mp hx
      · exact hab
      · exact hab.trans hbc
    · obtain rfl | rfl := mem_pair.mp hx
      · exact hab'
      · exact hab'.trans hbc'
  intro x hx
  obtain rfl | hx' | hx' := hS x hx
  · exact (degree_le_length (l := []) fun y hy hanti => absurd (hroot y hy) hanti.1).trans
      (Nat.zero_le 2)
  · refine degree_le_length (l := [b', c']) fun y hy hanti => ?_
    obtain rfl | hy' | hy' := hS y hy
    · exact absurd (hroot x hx) hanti.2
    · exact absurd hanti (hpair hbc hx' hy')
    · exact hy'
  · refine degree_le_length (l := [b, c]) fun y hy hanti => ?_
    obtain rfl | hy' | hy' := hS y hy
    · exact absurd (hroot x hx) hanti.2
    · exact hy'
    · exact absurd hanti (hpair hbc' hx' hy')

/-- Block 3 comes before its parent 2 in the order of wrapped works, so it counts as a block in the
anticone of 2, which is left out of the blues although it would not break the bound. -/
theorem red_without_need :
    ∃ M d, (genesisOf heavyHeader 2 (by decide)).addBlocks overflow = some M ∧ M.IsBlockDag ∧
      M.ghostdagStore.get? 6 = some d ∧ 2 ∈ d.mergesetReds ∧
      ∀ D : Dag Hash, D.parents = M.parents →
        IsCluster D.Anticone M.k (insert 2 (M.acceptedBlues d 2)) := by
  have hsome : ∃ M ∈ (genesisOf heavyHeader 2 (by decide)).addBlocks overflow, M.k = 2 ∧
      (M.parents 2 = [1] ∧ M.parents 3 = [2] ∧ M.parents 4 = [1] ∧ M.parents 5 = [4]) ∧
      (∃ d ∈ M.ghostdagStore.get? 1, d.mergesetBlues = [] ∧ d.selectedParent = origin) ∧
      (∃ d ∈ M.ghostdagStore.get? 4, d.mergesetBlues = [1] ∧ d.selectedParent = 1) ∧
      (∃ d ∈ M.ghostdagStore.get? 5, d.mergesetBlues = [4] ∧ d.selectedParent = 4) ∧
      ∃ d ∈ M.ghostdagStore.get? 6, d.mergesetBlues = [5, 3] ∧ d.mergesetReds = [2] ∧
        d.selectedParent = 5 := by
    decide +kernel
  obtain ⟨M, hrun, hk, hedges, ⟨d₁, hd₁, hblues₁, hsp₁⟩, ⟨d₄, hd₄, hblues₄, hsp₄⟩,
    ⟨d₅, hd₅, hblues₅, hsp₅⟩, d, hd, hblues, hreds, hsp⟩ := hsome
  refine ⟨M, d, hrun, grewBy_of_check hrun (by decide +kernel), hd, hreds ▸ mem_singleton_self 2,
    fun D hD => ?_⟩
  rw [← hD] at hedges
  have hedge : ∀ {p x}, D.parents x = [p] → D.Reaches p x := fun hx =>
    .of_parent (hx ▸ mem_singleton_self _)
  have hl₁ : M.Blues d₁ [] := hblues₁ ▸ .genesis hsp₁
  have hl₄ : M.Blues d₄ [1] := hl₁.step hblues₄ hsp₄ one_ne_origin hd₁
  have hl₅ : M.Blues d₅ [4, 1] := hl₄.step hblues₅ hsp₅ (by decide +kernel) hd₄
  rw [hk]
  refine isCluster_of_branches (hedge hedges.1) (hedge hedges.2.1) (hedge hedges.2.2.1)
    (hedge hedges.2.2.2) fun x hx => ?_
  rw [acceptedBlues_eq (hsp ▸ hd₅) hl₅] at hx
  obtain rfl | hx := mem_cons.mp hx
  · exact .inr (.inl mem_cons_self)
  obtain hx | hx := mem_append.mp hx
  · have hx := mem_of_mem_filter hx
    rw [hblues] at hx
    obtain rfl | rfl := mem_pair.mp hx
    · exact .inr (.inr (mem_cons_of_mem _ mem_cons_self))
    · exact .inr (.inl (mem_cons_of_mem _ mem_cons_self))
  · obtain rfl | rfl := mem_pair.mp hx
    · exact .inr (.inr mem_cons_self)
    · exact .inl rfl

/-- **Where the cluster fails**: a redundant parent is counted wrongly, and after an overflow a
block is red without need. -/
theorem ghostdag_cluster_fails :
    (∃ M d, (sampleGenesis 2 (by decide)).addBlocks redundantParent = some M ∧
      M.ghostdagStore.get? 3 = some d ∧ 2 ∈ M.blueSet d ∧ M.blueAnticoneSize 2 d = some 1 ∧
      ∀ D : Dag Hash, D.parents = M.parents → degree D.Anticone (M.blueSet d) 2 = 0) ∧
    ∃ M d, (genesisOf heavyHeader 2 (by decide)).addBlocks overflow = some M ∧ M.IsBlockDag ∧
      M.ghostdagStore.get? 6 = some d ∧ 2 ∈ d.mergesetReds ∧
      ∀ D : Dag Hash, D.parents = M.parents →
        IsCluster D.Anticone M.k (insert 2 (M.acceptedBlues d 2)) :=
  ⟨counts_redundant_parent, red_without_need⟩


end GhostdagManager

end Ghostdag

end KeryxNode
