import KeryxNode.Cluster
import KeryxNode.GhostdagMergeset

/-!
# The Colouring of a Mergeset

The blue set of a block is made of the blues of its mergeset and of those of the blocks of its
selected chain. The counts found by walking down the chain are exact, so the check of a candidate
sees how many blues the candidate has in its anticone and whether one of them is at the bound. The
walk may stop at a chain block in the past of the candidate: all further blues are in its past.
-/

namespace KeryxNode

open List OrdMap

namespace Ghostdag

namespace GhostdagManager

open scoped Classical

variable {M : GhostdagManager} {D : Dag Hash} {rank : Hash → ℕ} {h c : Hash}
  {d nd : GhostdagData} {l : List Hash} {size : Hash → ℕ} {acc : OrdMap Hash ℕ × ℕ} {k n : ℕ}

/-! ### Blue sets -/

/-- The blues of a colouring: those of its mergeset and those along its selected chain. -/
inductive Blues (M : GhostdagManager) : GhostdagData → List Hash → Prop where
  | genesis {d : GhostdagData} (hsp : d.selectedParent = origin) : Blues M d d.mergesetBlues
  | chain {d d' : GhostdagData} {l : List Hash} (hsp : d.selectedParent ≠ origin)
      (hget : M.ghostdagStore.get? d.selectedParent = some d') (hblues : Blues M d' l) :
      Blues M d (d.mergesetBlues ++ l)

theorem Blues.unique {l' : List Hash} (hl : M.Blues d l) (hl' : M.Blues d l') : l = l' := by
  induction hl generalizing l' with
  | genesis hsp =>
    cases hl' with
    | genesis => rfl
    | chain hsp' => exact absurd hsp hsp'
  | chain hsp hget _ ih =>
    cases hl' with
    | genesis hsp' => exact absurd hsp' hsp
    | chain _ hget' hblues' =>
      obtain rfl := Option.mem_unique hget hget'
      rw [ih hblues']

/-- The number of listed blocks in the anticone of a block. -/
noncomputable def anticoneCount (D : Dag Hash) (l : List Hash) (x : Hash) : ℕ :=
  l.countP fun y => decide (D.Anticone x y)

/-- What is known of the blues of a stored block: they are in its past, the counts found for them
are exact, and none exceeds the bound. -/
structure BlueView (M : GhostdagManager) (D : Dag Hash) (rank : Hash → ℕ) (h : Hash)
    (d : GhostdagData) (l : List Hash) : Prop where
  blues : M.Blues d l
  nodup : l.Nodup
  past : ∀ x ∈ l, D.InPast x h
  sizes : ∀ x ∈ l, ∀ rounds, rank h ≤ rounds →
    M.findAnticoneSize x (rounds + 1) d.bluesAnticoneSizes d.selectedParent
      = some (anticoneCount D l x)
  cluster : ∀ x ∈ l, anticoneCount D l x ≤ M.k

/-- A grown DAG, topologically ordered, all of whose blocks have a well coloured past. -/
structure Clustered (M : GhostdagManager) (D : Dag Hash) (rank : Hash → ℕ) : Prop
    extends Grown M D rank where
  rising : M.Rising
  view : ∀ {h d}, M.ghostdagStore.get? h = some d → h ≠ Ghostdag.origin →
    ∃ l, BlueView M D rank h d l

/-! ### The check of a candidate -/

/-- The verdict over the blues in the anticone of a candidate, in the order of the walk. -/
def outcome (k : ℕ) (size : Hash → ℕ) : List Hash → OrdMap Hash ℕ × ℕ → ColoringOutput
  | [], acc => .blue acc.2 acc.1
  | p :: ps, acc =>
    if k < acc.2 + 1 ∨ size p = k then .red
    else outcome k size ps (acc.1.insert p (size p), acc.2 + 1)

theorem outcome_append (l l' : List Hash) (acc : OrdMap Hash ℕ × ℕ) :
    outcome k size (l ++ l') acc = match outcome k size l acc with
      | .blue n m => outcome k size l' (m, n)
      | .red => .red := by
  induction l generalizing acc with
  | nil => rfl
  | cons p l ih =>
    rw [cons_append, outcome, outcome]
    split
    · rfl
    · exact ih _

/-- A red verdict names a violation of the bound. -/
theorem of_outcome_red (hred : outcome k size l acc = .red) :
    k < acc.2 + l.length ∨ ∃ p ∈ l, size p = k := by
  induction l generalizing acc with
  | nil => exact absurd hred (by simp [outcome])
  | cons p l ih =>
    rw [outcome] at hred
    split at hred
    · next hviolation =>
      obtain hlarge | hfull := hviolation
      · exact .inl (by rw [length_cons]; omega)
      · exact .inr ⟨p, mem_cons_self, hfull⟩
    · obtain hlarge | ⟨q, hq, hfull⟩ := ih hred
      · exact .inl (by rw [length_cons]; dsimp only at hlarge; omega)
      · exact .inr ⟨q, mem_cons_of_mem p hq, hfull⟩

/-- A blue verdict counts the blues in the anticone and lists their sizes. -/
theorem of_outcome_blue {m : OrdMap Hash ℕ} (hacc : acc.2 ≤ k)
    (hblue : outcome k size l acc = .blue n m) :
    n = acc.2 + l.length ∧ n ≤ k ∧ (∀ p ∈ l, size p ≠ k) ∧
      ∀ x, m.get? x = if x ∈ l then some (size x) else acc.1.get? x := by
  induction l generalizing acc with
  | nil =>
    obtain ⟨rfl, rfl⟩ : acc.2 = n ∧ acc.1 = m := by simpa [outcome] using hblue
    exact ⟨rfl, hacc, fun p hp => absurd hp not_mem_nil, fun x => by simp⟩
  | cons p l ih =>
    rw [outcome] at hblue
    split at hblue
    · cases hblue
    · next hfree =>
      rw [not_or] at hfree
      obtain ⟨hn, hk, hfull, hget⟩ := ih (Nat.le_of_not_lt hfree.1) hblue
      refine ⟨by rw [hn, length_cons]; dsimp only; omega, hk,
        forall_mem_cons.mpr ⟨hfree.2, hfull⟩, fun x => ?_⟩
      rw [hget, get?_insert]
      by_cases hx : x ∈ l
      · simp [hx]
      · by_cases hxp : x = p
        · subst hxp
          simp [hx]
        · simp [hxp]

/-- The peers of one chain block: only those outside the past of the candidate matter. -/
theorem Grown.checkPeers_eq (hG : Grown M D rank) (hc : M.Known c) {peers : List Hash}
    (hpeers : ∀ p ∈ peers, M.Known p)
    (hsize : ∀ p ∈ peers, M.blueAnticoneSize p nd = some (size p) ∧ size p ≤ M.k)
    (acc : OrdMap Hash ℕ × ℕ) :
    match outcome M.k size (peers.filter fun p => !decide (D.Reaches p c)) acc with
    | .blue n m => M.checkPeers nd c peers acc = some (.pending, (m, n))
    | .red => ∃ acc', M.checkPeers nd c peers acc = some (.red, acc') := by
  induction peers generalizing acc with
  | nil => rfl
  | cons p peers ih =>
    have htail := ih (fun q hq => hpeers q (mem_cons_of_mem p hq))
      fun q hq => hsize q (mem_cons_of_mem p hq)
    obtain ⟨sizes, n⟩ := acc
    obtain ⟨hsizep, hle⟩ := hsize p mem_cons_self
    rw [checkPeers, hG.isDagAncestorOf_eq (hpeers p mem_cons_self) hc]
    by_cases hreach : D.Reaches p c
    · rw [filter_cons_of_neg (by simpa using hreach), decide_eq_true hreach]
      exact htail (sizes, n)
    · rw [filter_cons_of_pos (by simpa using hreach), decide_eq_false hreach, outcome,
        hsizep]
      by_cases hlarge : M.k < n + 1
      · rw [if_pos (Or.inl hlarge)]
        exact ⟨(sizes.insert p (size p), n + 1), by simp [hlarge]⟩
      · by_cases hfull : size p = M.k
        · rw [if_pos (Or.inr hfull)]
          exact ⟨(sizes.insert p (size p), n + 1), by simp [hfull]⟩
        · have hstep := htail (sizes.insert p (size p), n + 1)
          simp only [some_bind, hlarge, hfull, hle]
          exact hstep

/-- A round of the walk that checks the peers of a chain block and may go on below it. -/
theorem Grown.checkChain_round (hG : Grown M D rank) (hc : M.Known c) {rounds : ℕ}
    {hash : Option Hash} {d' : GhostdagData} {rest : List Hash}
    (hpeers : ∀ p ∈ d.mergesetBlues, M.Known p)
    (hsize : ∀ p ∈ d.mergesetBlues, M.blueAnticoneSize p nd = some (size p) ∧ size p ≤ M.k)
    (hround : M.checkBlueCandidateWithChainBlock nd hash d c acc
      = M.checkPeers nd c d.mergesetBlues acc)
    (hget : M.ghostdagStore.get? d.selectedParent = some d')
    (hnext : ∀ acc, M.checkChain nd c rounds (some d.selectedParent) d' acc
      = some (outcome M.k size rest acc)) :
    M.checkChain nd c (rounds + 1) hash d acc = some (outcome M.k size
      ((d.mergesetBlues.filter fun p => !decide (D.Reaches p c)) ++ rest) acc) := by
  have hchecked := hG.checkPeers_eq hc hpeers hsize acc
  rw [checkChain, hround, outcome_append]
  cases hout : outcome M.k size (d.mergesetBlues.filter fun p => !decide (D.Reaches p c)) acc with
  | blue n m =>
    rw [hout] at hchecked
    rw [hchecked]
    rw [hget]
    exact hnext (m, n)
  | red =>
    rw [hout] at hchecked
    obtain ⟨acc', hchecked⟩ := hchecked
    rw [hchecked]
    rfl

/-- The data of the selected parent of a block above genesis. -/
theorem Grown.exists_selectedParent (hG : Grown M D rank) (hd : M.ghostdagStore.get? h = some d)
    (hne : h ≠ Ghostdag.origin) (hgenesis : h ≠ M.genesisHash) :
    ∃ d', M.ghostdagStore.get? d.selectedParent = some d' ∧ d.selectedParent ≠ Ghostdag.origin ∧
      rank d.selectedParent < rank h ∧ D.InPast d.selectedParent h := by
  have hsel := hG.selected hd hne hgenesis
  obtain ⟨d', hd'⟩ := (hG.stored _).mp (hG.closed hsel.mem)
  exact ⟨d', hd', fun heq => hsel.origin_notMem (heq ▸ hsel.mem), hG.rank_lt h _ hsel.mem,
    Dag.InPast.of_parent (hG.parents ▸ hsel.mem)⟩

namespace Clustered

variable (hC : Clustered M D rank)
include hC

/-- **The walk down the chain** from a stored block: the verdict over the blues of that block
which are outside the past of the candidate. -/
theorem checkChain_eq (hc : M.Known c) (hcne : c ≠ Ghostdag.origin) {size : Hash → ℕ}
    (hd : M.ghostdagStore.get? h = some d) (hne : h ≠ Ghostdag.origin)
    (hview : BlueView M D rank h d l)
    (hsize : ∀ p ∈ l, M.blueAnticoneSize p nd = some (size p) ∧ size p ≤ M.k)
    {rounds : ℕ} (hrounds : rank h ≤ rounds) (acc : OrdMap Hash ℕ × ℕ) :
    M.checkChain nd c (rounds + 1) (some h) d acc
      = some (outcome M.k size (l.filter fun p => !decide (D.Reaches p c)) acc) := by
  induction h using D.wf.induction generalizing d l rounds acc with
  | _ h ih =>
    have hh : M.Known h := (hC.stored h).mpr ⟨d, hd⟩
    have hanc := hC.isDagAncestorOf_eq hh hc
    by_cases hreach : D.Reaches h c
    · -- All remaining blues are in the past of the chain block, so in that of the candidate.
      have hnone : (l.filter fun p => !decide (D.Reaches p c)) = [] := by
        refine filter_eq_nil_iff.mpr fun p hp => ?_
        simpa using (hview.past p hp).reaches.trans hreach
      rw [hnone, checkChain, checkBlueCandidateWithChainBlock, hanc, decide_eq_true hreach]
      rfl
    · have hgenesis : h ≠ M.genesisHash := by
        rintro rfl
        exact hreach (hC.genesis_reaches hc hcne)
      obtain ⟨d', hd', hsp, hrank, hpast⟩ := hC.exists_selectedParent hd hne hgenesis
      obtain ⟨l', hview'⟩ := hC.view hd' hsp
      have hl : l = d.mergesetBlues ++ l' := hview.blues.unique (.chain hsp hd' hview'.blues)
      subst hl
      rw [filter_append]
      have hknown : ∀ p ∈ d.mergesetBlues, M.Known p := fun p hp =>
        hC.known_of_reaches hh (hview.past p (mem_append_left _ hp)).reaches
      obtain ⟨rounds, rfl⟩ : ∃ r, rounds = r + 1 := ⟨rounds - 1, by omega⟩
      refine hC.checkChain_round hc hknown
        (fun p hp => hsize p (mem_append_left _ hp)) ?_ hd' fun acc => ?_
      · rw [checkBlueCandidateWithChainBlock, hanc, decide_eq_false hreach]
        rfl
      · exact ih _ (hC.parents ▸ (hC.selected hd hne hgenesis).mem) hd' hsp hview'
          (fun p hp => hsize p (mem_append_right _ hp)) (by omega) acc

end Clustered

/-! ### Counting -/

section Count

variable {x : Hash}

theorem anticoneCount_cons :
    anticoneCount D (c :: l) x = anticoneCount D l x + if D.Anticone x c then 1 else 0 := by
  simp [anticoneCount, countP_cons]

/-- If the candidate is in the past of no blue, its anticone holds the blues outside its past. -/
theorem length_filter_eq_anticoneCount (hl : ∀ y ∈ l, ¬ D.Reaches c y) :
    (l.filter fun p => !decide (D.Reaches p c)).length = anticoneCount D l c := by
  rw [anticoneCount, countP_eq_length_filter]
  congr 1
  refine filter_congr fun y hy => ?_
  simp [Dag.Anticone, hl y hy]

end Count

theorem findAnticoneSize_of_get? {x sp : Hash} {sizes : OrdMap Hash ℕ}
    (hget : sizes.get? x = some n) (rounds : ℕ) :
    M.findAnticoneSize x (rounds + 1) sizes sp = some n := by
  rw [findAnticoneSize, hget]

/-- The entries after a blue block was added. -/
theorem get?_addBlue (d : GhostdagData) (block : Hash) (n : ℕ) (m : OrdMap Hash ℕ) (x : Hash) :
    (d.addBlue block n m).bluesAnticoneSizes.get? x
      = ((m.get? x).map (· + 1)).or ((d.bluesAnticoneSizes.insert block n).get? x) := by
  have hover : (d.addBlue block n m).bluesAnticoneSizes
      = (d.bluesAnticoneSizes.insert block n).overlay (m.map fun _ v => v + 1) := by
    rw [overlay, OrdMap.map, foldl_map]
    rfl
  rw [hover, get?_overlay, get?_map]

/-! ### Colouring one block after another -/

/-- A new block about to merge: its parents, the selected one and the blues of that one. -/
structure Merging (M : GhostdagManager) (D : Dag Hash) (rank : Hash → ℕ) (ps : List Hash)
    (sp : Hash) (lsp : List Hash) : Prop where
  clustered : Clustered M D rank
  parents : NewParents M D ps
  mem : sp ∈ ps
  best : ∀ p ∈ ps, M.key p ≤ M.key sp
  view : ∃ d, M.ghostdagStore.get? sp = some d ∧ BlueView M D rank sp d lsp

/-- The blues accepted before a merged block came up. -/
noncomputable def acceptedBefore (M : GhostdagManager) (nd : GhostdagData) (lsp : List Hash)
    (r : Hash) : List Hash :=
  (nd.mergesetBlues.filter fun y => decide (y = nd.selectedParent ∨ M.key y < M.key r)) ++ lsp

/-- The first blocks of a mergeset divided into blues and reds, behind the selected parent. -/
structure Divided (sp : Hash) (done : List Hash) (nd : GhostdagData) : Prop where
  selectedParent : nd.selectedParent = sp
  head : nd.mergesetBlues = sp :: nd.mergesetBlues.tail
  blues : nd.mergesetBlues.tail.Sublist done
  reds : nd.mergesetReds.Sublist done
  perm : (nd.mergesetBlues.tail ++ nd.mergesetReds).Perm done

/-- A colouring of the first blocks of a mergeset: the counts are exact, the blues are a cluster,
and every red block would have broken the bound. -/
structure Colouring (M : GhostdagManager) (D : Dag Hash) (rank : Hash → ℕ) (sp : Hash)
    (lsp done : List Hash) (nd : GhostdagData) : Prop extends Divided sp done nd where
  sizes : ∀ x ∈ nd.mergesetBlues ++ lsp, ∀ rounds, rank sp < rounds →
    M.findAnticoneSize x (rounds + 1) nd.bluesAnticoneSizes sp
      = some (anticoneCount D (nd.mergesetBlues ++ lsp) x)
  cluster : ∀ x ∈ nd.mergesetBlues ++ lsp, anticoneCount D (nd.mergesetBlues ++ lsp) x ≤ M.k
  length : nd.mergesetBlues.length ≤ M.k + 1
  forced : ∀ r ∈ nd.mergesetReds, ∃ x ∈ r :: M.acceptedBefore nd lsp r,
    M.k < anticoneCount D (r :: M.acceptedBefore nd lsp r) x

/-- What the blues so far have to do with the next block of the mergeset. -/
structure Ready (M : GhostdagManager) (D : Dag Hash) (l : List Hash) (c : Hash) : Prop where
  known : ∀ x ∈ l, M.Known x
  not_reaches : ∀ x ∈ l, ¬ D.Reaches c x

section Steps

variable {lsp done : List Hash} {sp : Hash}

theorem divided_start (sp : Hash) : Divided sp [] (.newWithSelectedParent sp) :=
  ⟨rfl, rfl, Sublist.refl _, Sublist.refl _, Perm.refl _⟩

/-- A further block is red. -/
theorem Divided.addRed (h : Divided sp done nd) (c : Hash) :
    Divided sp (done ++ [c]) (nd.addRed c) where
  selectedParent := h.selectedParent
  head := h.head
  blues := h.blues.trans (sublist_append_left done [c])
  reds := h.reds.append (Sublist.refl [c])
  perm := by
    change (nd.mergesetBlues.tail ++ (nd.mergesetReds ++ [c])).Perm (done ++ [c])
    rw [← append_assoc]
    exact h.perm.append_right [c]

/-- A further block is blue. -/
theorem Divided.addBlue (h : Divided sp done nd) (c : Hash) (n : ℕ) (m : OrdMap Hash ℕ) :
    Divided sp (done ++ [c]) (nd.addBlue c n m) := by
  have hhead : (nd.addBlue c n m).mergesetBlues.tail = nd.mergesetBlues.tail ++ [c] := by
    change (nd.mergesetBlues ++ [c]).tail = _
    rw [h.head]
    rfl
  refine ⟨h.selectedParent, ?_, ?_, h.reds.trans (sublist_append_left done [c]), ?_⟩
  · rw [hhead]
    change nd.mergesetBlues ++ [c] = _
    rw [h.head]
    rfl
  · rw [hhead]
    exact h.blues.append (Sublist.refl [c])
  · rw [hhead]
    refine Perm.trans ?_ (h.perm.append_right [c])
    rw [append_assoc, append_assoc]
    exact perm_append_comm.append_left nd.mergesetBlues.tail

/-- However its blocks are coloured, a mergeset is divided into blues and reds. -/
theorem Divided.of_foldlM {nd' : GhostdagData} (todo : List Hash) (h : Divided sp done nd)
    (hrun : todo.foldlM M.colourBlock nd = some nd') : Divided sp (done ++ todo) nd' := by
  induction todo generalizing done nd with
  | nil =>
    cases hrun
    rwa [append_nil]
  | cons c todo ih =>
    obtain ⟨next, hstep, hrun⟩ := Option.bind_eq_some_iff.mp hrun
    obtain ⟨colour, -, hstep⟩ := Option.bind_eq_some_iff.mp hstep
    rw [append_cons]
    cases colour with
    | blue n m =>
      cases hstep
      exact ih (h.addBlue c n m) hrun
    | red =>
      cases hstep
      exact ih (h.addRed c) hrun

section

variable (hcol : Colouring M D rank sp lsp done nd)
include hcol

/-- The blues accepted before the next block are all blues so far. -/
theorem acceptedBefore_eq (hlater : ∀ x ∈ done, M.key x < M.key c) :
    M.acceptedBefore nd lsp c = nd.mergesetBlues ++ lsp := by
  rw [acceptedBefore, filter_eq_self.mpr]
  intro y hy
  rw [hcol.head] at hy
  rw [decide_eq_true_eq, hcol.selectedParent]
  exact (mem_cons.mp hy).imp_right fun hy => hlater y (hcol.blues.subset hy)

/-- A red block: it would have broken the bound. -/
theorem Colouring.addRed (hlater : ∀ x ∈ done, M.key x < M.key c)
    (hforced : ∃ x ∈ c :: (nd.mergesetBlues ++ lsp),
      M.k < anticoneCount D (c :: (nd.mergesetBlues ++ lsp)) x) :
    Colouring M D rank sp lsp (done ++ [c]) (nd.addRed c) where
  toDivided := hcol.toDivided.addRed c
  sizes := hcol.sizes
  cluster := hcol.cluster
  length := hcol.length
  forced r hr := by
    obtain hr | hr := mem_append.mp hr
    · exact hcol.forced r hr
    · obtain rfl := mem_singleton.mp hr
      change ∃ x ∈ r :: M.acceptedBefore nd lsp r, M.k < anticoneCount D
        (r :: M.acceptedBefore nd lsp r) x
      rwa [acceptedBefore_eq hcol hlater]

/-- A blue block: its size is the number of blues in its anticone, and those count it in. -/
theorem Colouring.addBlue (hready : Ready M D (nd.mergesetBlues ++ lsp) c) (hne : c ≠ sp)
    (hlater : ∀ x ∈ done, M.key x < M.key c) (hlength : nd.mergesetBlues.length ≠ M.k + 1)
    {m : OrdMap Hash ℕ} (hn : n = anticoneCount D (nd.mergesetBlues ++ lsp) c) (hk : n ≤ M.k)
    (hfull : ∀ p ∈ nd.mergesetBlues ++ lsp, D.Anticone p c →
      anticoneCount D (nd.mergesetBlues ++ lsp) p ≠ M.k)
    (hget : ∀ x, m.get? x = if x ∈ nd.mergesetBlues ++ lsp ∧ D.Anticone x c then
      some (anticoneCount D (nd.mergesetBlues ++ lsp) x) else none) :
    Colouring M D rank sp lsp (done ++ [c]) (nd.addBlue c n m) := by
  have hperm : ((nd.addBlue c n m).mergesetBlues ++ lsp).Perm
      (c :: (nd.mergesetBlues ++ lsp)) := by
    change (nd.mergesetBlues ++ [c] ++ lsp).Perm _
    rw [append_assoc]
    exact perm_middle
  -- A blue block in the anticone counts one more, every other one what it did.
  have hcount : ∀ x, anticoneCount D ((nd.addBlue c n m).mergesetBlues ++ lsp) x
      = anticoneCount D (nd.mergesetBlues ++ lsp) x + if D.Anticone x c then 1 else 0 :=
    fun x => (hperm.countP_eq _).trans anticoneCount_cons
  have hnotMem : c ∉ nd.mergesetBlues ++ lsp := fun hc =>
    hready.not_reaches c hc (Dag.Reaches.refl c)
  refine ⟨hcol.toDivided.addBlue c n m, ?_, ?_, ?_, ?_⟩
  · intro x hx rounds hrounds
    rw [hcount]
    obtain rfl | hmem := mem_cons.mp (hperm.mem_iff.mp hx)
    · rw [if_neg (Dag.not_anticone_self x), Nat.add_zero, ← hn]
      refine findAnticoneSize_of_get? ?_ rounds
      rw [get?_addBlue, hget, if_neg fun h => hnotMem h.1, get?_insert_self]
      rfl
    by_cases hanti : D.Anticone x c
    · refine findAnticoneSize_of_get? ?_ rounds
      rw [get?_addBlue, hget, if_pos ⟨hmem, hanti⟩, if_pos hanti]
      rfl
    · have hxc : x ≠ c := fun heq => hnotMem (heq ▸ hmem)
      have hsame : (nd.addBlue c n m).bluesAnticoneSizes.get? x
          = nd.bluesAnticoneSizes.get? x := by
        rw [get?_addBlue, hget, if_neg fun h => hanti h.2, get?_insert_of_ne _ _ hxc]
        rfl
      rw [findAnticoneSize, hsame, if_neg hanti]
      exact hcol.sizes x hmem rounds hrounds
  · intro x hx
    rw [hcount]
    obtain rfl | hmem := mem_cons.mp (hperm.mem_iff.mp hx)
    · rwa [if_neg (Dag.not_anticone_self x), Nat.add_zero, ← hn]
    split_ifs with hanti
    · exact (hcol.cluster x hmem).lt_of_ne (hfull x hmem hanti)
    · exact hcol.cluster x hmem
  · have hle := hcol.length
    change (nd.mergesetBlues ++ [c]).length ≤ M.k + 1
    rw [length_append, length_singleton]
    omega
  · -- The new blue comes after every red.
    intro r hr
    have hbefore : M.acceptedBefore (nd.addBlue c n m) lsp r = M.acceptedBefore nd lsp r := by
      have hlt := hlater r (hcol.reds.subset hr)
      change ((nd.mergesetBlues ++ [c]).filter fun y =>
        decide (y = nd.selectedParent ∨ M.key y < M.key r)) ++ lsp = _
      rw [filter_append, filter_cons_of_neg, filter_nil, append_nil]
      · rfl
      · rw [decide_eq_true_eq, hcol.selectedParent]
        exact not_or.mpr ⟨hne, hlt.asymm⟩
    rw [hbefore]
    exact hcol.forced r hr

end

end Steps

section Merging

variable {ps lsp done : List Hash} {sp : Hash} (hm : Merging M D rank ps sp lsp) {x : Hash}
include hm

theorem Merging.sp_ne_origin : sp ≠ origin :=
  fun heq => hm.parents.origin_notMem (heq ▸ hm.mem)

theorem Merging.known_of_merged (hc : Merged D sp ps c) : M.Known c := by
  obtain ⟨⟨p, hp, hreach⟩, -⟩ := hc
  exact hm.clustered.known_of_reaches (hm.parents.known p hp) hreach

theorem Merging.ne_origin_of_merged (hc : Merged D sp ps c) : c ≠ origin := by
  rintro rfl
  exact hc.2 (hm.clustered.origin_reaches (hm.parents.known sp hm.mem))

/-- Genesis has no blues below it. -/
theorem Merging.sp_ne_genesis (hx : x ∈ lsp) : sp ≠ M.genesisHash := by
  rintro rfl
  obtain ⟨d, hd, hview⟩ := hm.view
  obtain rfl := Option.mem_unique hm.clustered.genesisData hd
  rw [hview.blues.unique (.genesis rfl)] at hx
  cases hx

/-- The colouring that holds the selected parent only. -/
theorem Merging.colouring_start : Colouring M D rank sp lsp [] (.newWithSelectedParent sp) := by
  obtain ⟨d, hd, hview⟩ := hm.view
  have hnot : ∀ x ∈ lsp, ¬ D.Anticone x sp := fun x hx => (hview.past x hx).not_anticone
  have hcount : ∀ x ∈ sp :: lsp, anticoneCount D (sp :: lsp) x = anticoneCount D lsp x := by
    intro x hx
    rw [anticoneCount_cons, if_neg, Nat.add_zero]
    obtain rfl | hx := mem_cons.mp hx
    · exact Dag.not_anticone_self x
    · exact hnot x hx
  have hzero : anticoneCount D lsp sp = 0 := by
    refine countP_eq_zero.mpr fun y hy => ?_
    simpa using fun hanti => hnot y hy (Dag.Anticone.symm hanti)
  refine ⟨divided_start sp, ?_, ?_, ?_, ?_⟩
  · intro x hx rounds hrounds
    change M.findAnticoneSize x (rounds + 1) (empty.insert sp 0) sp = some
      (anticoneCount D (sp :: lsp) x)
    rw [hcount x hx]
    obtain rfl | hxl := mem_cons.mp hx
    · rw [hzero]
      exact findAnticoneSize_of_get? (get?_insert_self _ _ _) rounds
    · -- The size of a blue below the selected parent is the one found from there.
      have hne : x ≠ sp := (hview.past x hxl).ne
      have hstop : ¬ (sp = M.genesisHash ∨ sp = origin) :=
        not_or.mpr ⟨hm.sp_ne_genesis hxl, hm.sp_ne_origin⟩
      obtain ⟨rounds, rfl⟩ : ∃ r, rounds = r + 1 := ⟨rounds - 1, by omega⟩
      rw [findAnticoneSize, get?_insert_of_ne _ _ hne]
      rw [if_neg hstop, hd]
      exact hview.sizes x hxl rounds (by omega)
  · intro x hx
    change anticoneCount D (sp :: lsp) x ≤ M.k
    rw [hcount x hx]
    obtain rfl | hxl := mem_cons.mp hx
    · rw [hzero]
      exact Nat.zero_le _
    · exact hview.cluster x hxl
  · exact Nat.le_add_left 1 M.k
  · intro r hr
    cases hr

section

variable (hcol : Colouring M D rank sp lsp done nd)
include hcol

/-- The blues so far: the selected parent, merged blocks, and the blues of the selected parent. -/
theorem Merging.mem_blues (hx : x ∈ nd.mergesetBlues ++ lsp) :
    x = sp ∨ x ∈ done ∨ D.InPast x sp := by
  obtain ⟨d, hd, hview⟩ := hm.view
  obtain hx | hx := mem_append.mp hx
  · rw [hcol.head] at hx
    exact (mem_cons.mp hx).imp_right fun hx => .inl (hcol.blues.subset hx)
  · exact .inr (.inr (hview.past x hx))

theorem Merging.reaches_of_mem_blues (hmerged : ∀ x ∈ done, Merged D sp ps x)
    (hx : x ∈ nd.mergesetBlues ++ lsp) :
    ∃ p ∈ ps, D.Reaches x p := by
  obtain rfl | hx | hx := hm.mem_blues hcol hx
  · exact ⟨x, hm.mem, Dag.Reaches.refl x⟩
  · exact (hmerged x hx).1
  · exact ⟨sp, hm.mem, hx.reaches⟩

theorem Merging.known_of_mem_blues (hmerged : ∀ x ∈ done, Merged D sp ps x)
    (hx : x ∈ nd.mergesetBlues ++ lsp) :
    M.Known x := by
  obtain ⟨p, hp, hreach⟩ := hm.reaches_of_mem_blues hcol hmerged hx
  exact hm.clustered.known_of_reaches (hm.parents.known p hp) hreach

theorem Merging.nodup_blues (hdone : done.Pairwise fun a b => M.key a < M.key b)
    (hmerged : ∀ x ∈ done, Merged D sp ps x) : (nd.mergesetBlues ++ lsp).Nodup := by
  obtain ⟨d, hd, hview⟩ := hm.view
  have hdoneNodup : done.Nodup := hdone.imp fun hlt heq => hlt.ne (congrArg M.key heq)
  rw [hcol.head]
  refine nodup_append.mpr ⟨?_, hview.nodup, ?_⟩
  · refine nodup_cons.mpr ⟨fun hsp => ?_, hcol.blues.nodup hdoneNodup⟩
    exact (hmerged sp (hcol.blues.subset hsp)).2 (Dag.Reaches.refl sp)
  · rintro x hx y hy rfl
    obtain rfl | hx := mem_cons.mp hx
    · exact (hview.past x hy).ne rfl
    · exact (hmerged x (hcol.blues.subset hx)).2 (hview.past x hy).reaches

/-- The next block of the mergeset is in the past of none of the blues so far. -/
theorem Merging.ready (hmerged : ∀ x ∈ done, Merged D sp ps x) (hc : Merged D sp ps c)
    (hlater : ∀ x ∈ done, M.key x < M.key c) : Ready M D (nd.mergesetBlues ++ lsp) c := by
  refine ⟨fun x hx => hm.known_of_mem_blues hcol hmerged hx, fun x hx hreach => ?_⟩
  obtain rfl | hx | hx := hm.mem_blues hcol hx
  · exact hc.2 hreach
  · have hle := hm.clustered.key_le_of_reaches hm.clustered.rising hreach
      (hm.ne_origin_of_merged hc)
    exact (hlater x hx).not_ge hle
  · exact hc.2 (hreach.trans hx.reaches)

/-- **The check of a candidate**: red at the limit of the mergeset, else the verdict over the blues
in its anticone. -/
theorem Merging.checkBlueCandidate_eq (hready : Ready M D (nd.mergesetBlues ++ lsp) c)
    (hc : Merged D sp ps c) :
    M.checkBlueCandidate nd c = some
      (if nd.mergesetBlues.length = M.k + 1 then .red
      else outcome M.k (anticoneCount D (nd.mergesetBlues ++ lsp))
        ((nd.mergesetBlues ++ lsp).filter fun p => !decide (D.Reaches p c)) (empty, 0)) := by
  obtain ⟨d, hd, hview⟩ := hm.view
  have hrank := hm.clustered.rank_size (hm.parents.known sp hm.mem)
  have hmod : nd.mergesetBlues.length % 2 ^ 16 = nd.mergesetBlues.length :=
    Nat.mod_eq_of_lt (hcol.length.trans_lt M.k_lt)
  have hsize : ∀ p ∈ nd.mergesetBlues ++ lsp, M.blueAnticoneSize p nd
      = some (anticoneCount D (nd.mergesetBlues ++ lsp) p) ∧
        anticoneCount D (nd.mergesetBlues ++ lsp) p ≤ M.k := by
    intro p hp
    rw [blueAnticoneSize, hcol.selectedParent]
    exact ⟨hcol.sizes p hp _ hrank, hcol.cluster p hp⟩
  rw [checkBlueCandidate, hmod]
  split
  · rfl
  · obtain ⟨rounds, hrounds⟩ : ∃ r, M.relationsStore.size = r + 1 :=
      ⟨M.relationsStore.size - 1, by omega⟩
    rw [filter_append, hrounds]
    refine hm.clustered.checkChain_round (hm.known_of_merged hc)
      (fun p hp => hready.known p (mem_append_left _ hp))
      (fun p hp => hsize p (mem_append_left _ hp)) rfl (hcol.selectedParent.symm ▸ hd)
      fun acc => ?_
    rw [hcol.selectedParent]
    exact hm.clustered.checkChain_eq (hm.known_of_merged hc) (hm.ne_origin_of_merged hc) hd
      hm.sp_ne_origin hview (fun p hp => hsize p (mem_append_right _ hp)) (by omega) acc

/-- **One block**: colouring the next block of the mergeset. -/
theorem Merging.colourBlock_eq (hready : Ready M D (nd.mergesetBlues ++ lsp) c)
    (hc : Merged D sp ps c) (hmerged : ∀ x ∈ done, Merged D sp ps x)
    (hlater : ∀ x ∈ done, M.key x < M.key c) :
    ∃ nd', M.colourBlock nd c = some nd' ∧ Colouring M D rank sp lsp (done ++ [c]) nd' := by
  have hne : c ≠ sp := by
    rintro rfl
    exact hc.2 (Dag.Reaches.refl c)
  have hfilter : ∀ x, x ∈ (nd.mergesetBlues ++ lsp).filter (fun p => !decide (D.Reaches p c)) ↔
      x ∈ nd.mergesetBlues ++ lsp ∧ D.Anticone x c := by
    intro x
    rw [mem_filter]
    refine and_congr_right fun hx => ?_
    simp [Dag.Anticone, hready.not_reaches x hx]
  rw [colourBlock, hm.checkBlueCandidate_eq hcol hready hc]
  split_ifs with hlength
  · -- A full mergeset: the selected parent would have one blue too many in its anticone.
    refine ⟨_, rfl, hcol.addRed hlater ⟨sp, ?_, ?_⟩⟩
    · rw [hcol.head]
      exact mem_cons_of_mem c mem_cons_self
    · have hanti : ∀ x, Merged D sp ps x → D.Anticone sp x := fun x hx =>
        ⟨hm.parents.not_reaches_of_merged hm.mem hx, hx.2⟩
      have htail : nd.mergesetBlues.tail.length = M.k := by
        rw [length_tail, hlength, Nat.add_sub_cancel]
      have hall : anticoneCount D nd.mergesetBlues.tail sp = nd.mergesetBlues.tail.length :=
        countP_eq_length.mpr fun x hx => by
          simpa using hanti x (hmerged x (hcol.blues.subset hx))
      have hsub : nd.mergesetBlues.tail.Sublist (nd.mergesetBlues ++ lsp) :=
        (tail_sublist _).trans (sublist_append_left _ _)
      have hle : anticoneCount D nd.mergesetBlues.tail sp
          ≤ anticoneCount D (nd.mergesetBlues ++ lsp) sp := hsub.countP_le
      rw [anticoneCount_cons, if_pos (hanti c hc)]
      omega
  · cases hout : outcome M.k (anticoneCount D (nd.mergesetBlues ++ lsp))
        ((nd.mergesetBlues ++ lsp).filter fun p => !decide (D.Reaches p c)) (empty, 0) with
    | blue n m =>
      obtain ⟨hn, hk, hfull, hget⟩ := of_outcome_blue (Nat.zero_le _) hout
      rw [length_filter_eq_anticoneCount hready.not_reaches, Nat.zero_add] at hn
      refine ⟨_, rfl, hcol.addBlue hready hne hlater hlength hn hk
        (fun p hp hanti => hfull p ((hfilter p).mpr ⟨hp, hanti⟩)) fun x => ?_⟩
      rw [hget]
      exact if_congr (hfilter x) rfl rfl
    | red =>
      refine ⟨_, rfl, hcol.addRed hlater ?_⟩
      obtain hlarge | ⟨p, hp, hfull⟩ := of_outcome_red hout
      · rw [length_filter_eq_anticoneCount hready.not_reaches, Nat.zero_add] at hlarge
        refine ⟨c, mem_cons_self, ?_⟩
        rwa [anticoneCount_cons, if_neg (Dag.not_anticone_self c)]
      · obtain ⟨hmem, hanti⟩ := (hfilter p).mp hp
        refine ⟨p, mem_cons_of_mem c hmem, ?_⟩
        rw [anticoneCount_cons, if_pos hanti, hfull]
        exact Nat.lt_succ_self _

/-- **The whole mergeset**: colouring its blocks one after another. -/
theorem Merging.colouring_run (todo : List Hash)
    (hsorted : (done ++ todo).Pairwise fun a b => M.key a < M.key b)
    (hmerged : ∀ x ∈ done ++ todo, Merged D sp ps x) :
    ∃ nd', todo.foldlM M.colourBlock nd = some nd' ∧
      Colouring M D rank sp lsp (done ++ todo) nd' := by
  induction todo generalizing done nd with
  | nil => exact ⟨nd, rfl, (append_nil done).symm ▸ hcol⟩
  | cons c todo ih =>
    have hlater : ∀ x ∈ done, M.key x < M.key c := fun x hx =>
      (pairwise_append.mp hsorted).2.2 x hx c mem_cons_self
    have hmergedDone : ∀ x ∈ done, Merged D sp ps x := fun x hx =>
      hmerged x (mem_append_left _ hx)
    have hc := hmerged c (mem_append_right _ mem_cons_self)
    obtain ⟨nd', hstep, hcol'⟩ := hm.colourBlock_eq hcol
      (hm.ready hcol hmergedDone hc hlater) hc hmergedDone hlater
    rw [append_cons] at hsorted hmerged ⊢
    obtain ⟨nd'', hrun, hcol''⟩ := ih hcol' hsorted hmerged
    refine ⟨nd'', ?_, hcol''⟩
    rw [foldlM_cons, hstep, some_bind, hrun]

end

/-- The mergeset of a new block is coloured; no panic, and no assertion fails. -/
theorem Merging.colourMergeset_eq :
    ∃ mergeset nd, M.colourMergeset sp ps = some nd ∧ Colouring M D rank sp lsp mergeset nd ∧
      (mergeset.Pairwise fun a b => M.key a < M.key b) ∧
      ∀ x, x ∈ mergeset ↔ Merged D sp ps x := by
  obtain ⟨mergeset, hmergeset, hsorted, hmem⟩ :=
    hm.clustered.orderedMergeset_eq hm.parents hm.mem
  obtain ⟨nd, hrun, hcol⟩ := hm.colouring_run hm.colouring_start mergeset hsorted
    fun x hx => (hmem x).mp hx
  refine ⟨mergeset, nd, ?_, hcol, hsorted, hmem⟩
  rw [colourMergeset, hmergeset, some_bind, hrun]

end Merging

end GhostdagManager

end Ghostdag

end KeryxNode
