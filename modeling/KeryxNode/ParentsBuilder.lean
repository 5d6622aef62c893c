import KeryxNode.Collateral
import KeryxNode.Dag
import KeryxNode.ErrorChain
import KeryxNode.MaximalSet
import KeryxNode.RunLength
import KeryxNode.Worklist

/-!
# Parents by Level

A header lists parents for every block level (`consensus/src/processes/parents_builder.rs`). The
parents of a new block at a level are found from its direct parents and from their parents at that
level: direct parents of the level are candidates at once, and a grandparent replaces the
candidates below it or is left out because it is below one. Levels whose only parent is genesis are
left out of the header, and every missing level reads as genesis.

## Main results

* `ParentsManager.calcBlockParents_maximal`: in a DAG built this way the parents calculated for a
  new block are the maximal blocks of each level in its past.
-/

namespace KeryxNode

open List RunLength Worklist

/-- The parents of every level, as runs of equal lists. -/
abbrev CompressedParents := RunLength (List Hash)

/-- The level of a block and what its header tells about the parents. -/
structure HeaderWithBlockLevel where
  hash : Hash
  parentsByLevel : CompressedParents
  blockLevel : ℕ
  deriving DecidableEq

/-- The stores the parents are calculated from. The reachability service answers whether a block
is another one or in its past. -/
structure ParentsManager where
  maxBlockLevel : ℕ
  genesisHash : Hash
  headersStore : Hash → Option HeaderWithBlockLevel
  isDagAncestorOf : Hash → Hash → Bool
  hasReachabilityData : Hash → Bool
  /-- The children of the virtual origin: blocks whose own parents were pruned. -/
  originChildren : List Hash

namespace ParentsManager

variable (M : ParentsManager) {b h : Hash}

/-- The parents of a header at a level: genesis if the header does not list the level, none for
genesis itself. -/
def parentsAtLevel (parentsByLevel : CompressedParents) (level : ℕ) : List Hash :=
  (parentsByLevel.get level).getD
    (if parentsByLevel.runs.isEmpty then [] else [M.genesisHash])

/-! ### One level -/

/-- Candidates at a level, each with the blocks that stand for it in reachability queries. -/
abbrev Candidates := List (Hash × List Hash)

/-- Enters a candidate with its reference blocks. -/
def insertCandidate (candidates : Candidates) (parent : Hash) (refs : List Hash) : Candidates :=
  candidates.filter (fun c => decide (c.1 ≠ parent)) ++ [(parent, refs)]

/-- Candidates that stand for themselves. -/
def selfReferring (hashes : List Hash) : Candidates :=
  hashes.map fun h => (h, [h])

/-- The blocks that stand for a grandparent: itself, or, if it was pruned, the children of the
origin that have it as a parent. -/
def referenceBlocks (level : ℕ) (parent : Hash) : Option (List Hash) :=
  if M.hasReachabilityData parent then some [parent]
  else do
    let children ← M.originChildren.mapM M.headersStore
    return (children.filter fun child =>
      (M.parentsAtLevel child.parentsByLevel level).contains parent).map (·.hash)

/-- One grandparent, with its position: those of the first parent are all entered; another one is
entered if a candidate lies below it or none lies above it, and candidates below it are dropped. -/
def processGrandparent (level firstParentMarker : ℕ) (candidates : Candidates)
    (grandparent : Hash × ℕ) : Option Candidates := do
  let (parent, i) := grandparent
  let refs ← M.referenceBlocks level parent
  if i < firstParentMarker then return insertCandidate candidates parent refs
  else if !M.hasReachabilityData parent then return candidates
  else
    let kept := candidates.filter fun c => !c.2.any fun ref => M.isDagAncestorOf ref parent
    if kept.length < candidates.length ||
        !kept.any (fun c => c.2.any fun ref => M.isDagAncestorOf parent ref) then
      return insertCandidate kept parent refs
    else return kept

/-- The direct parents of a level. -/
def directAt (headers : List HeaderWithBlockLevel) (level : ℕ) : List Hash :=
  discover [] ((headers.filter fun h => decide (level ≤ h.blockLevel)).map (·.hash))

/-- The parents of some headers at a level. -/
def parentsOf (headers : List HeaderWithBlockLevel) (level : ℕ) : List Hash :=
  headers.flatMap fun h => M.parentsAtLevel h.parentsByLevel level

/-- The grandparents to look at, and how many of them are those of the first parent. Without a
direct parent at the level the parents of the first parent come first; otherwise only direct
parents below the level contribute. A panic if there is no direct parent. -/
def grandparents (headers : List HeaderWithBlockLevel) (level : ℕ) : Option (List Hash × ℕ) :=
  if (directAt headers level).isEmpty then do
    let first ← headers.head?
    let ofFirst := discover [] (M.parentsAtLevel first.parentsByLevel level)
    return (ofFirst ++ discover ofFirst (M.parentsOf headers.tail level), ofFirst.length)
  else
    let below := headers.filter fun h => decide (h.blockLevel < level)
    return (discover [] (M.parentsOf below level), 0)

/-- The parents of the new block at one level. The candidates are kept in a hash map, whose keys
come in an order of their own. -/
def levelParents (order : ℕ → List Hash → List Hash) (headers : List HeaderWithBlockLevel)
    (level : ℕ) : Option (List Hash) := do
  let (grandparents, firstParentMarker) ← M.grandparents headers level
  if (directAt headers level).isEmpty && firstParentMarker == grandparents.length then
    return grandparents
  else
    let candidates ← grandparents.zipIdx.foldlM (M.processGrandparent level firstParentMarker)
      (selfReferring (directAt headers level))
    return order level (candidates.map Prod.fst)

/-! ### All levels -/

/-- The levels from `level` on. A level above the lowest whose only parent is genesis ends the
list; more than 255 levels are a panic. -/
def collectLevels (order : ℕ → List Hash → List Hash) (headers : List HeaderWithBlockLevel) :
    ℕ → ℕ → CompressedParents → Option CompressedParents
  | _, 0, parents => some parents
  | level, remaining + 1, parents => do
    let atLevel ← M.levelParents order headers level
    if level > 0 && atLevel == [M.genesisHash] then return parents
    else
      let parents ← parents.push 255 atLevel
      collectLevels order headers (level + 1) remaining parents

/-- The parents of every level for a new block with the given direct parents. The first direct
parent in the future of the pruning point is put in front; a panic if there is none. -/
def calcBlockParents (order : ℕ → List Hash → List Hash) (currentPruningPoint : Hash)
    (directParents : List Hash) : Option CompressedParents := do
  let headers ← directParents.mapM M.headersStore
  let first ← directParents.findIdx? fun parent => M.isDagAncestorOf currentPruningPoint parent
  let headers := (headers.toArray.swapIfInBounds 0 first).toList
  M.collectLevels order headers 0 (M.maxBlockLevel + 1) empty

/-! ### DAGs that are built this way -/

/-- A block occupies a level: genesis occupies every level. -/
def OnLevel (level : ℕ) (h : Hash) : Prop :=
  h = M.genesisHash ∨ ∃ header, M.headersStore h = some header ∧ level ≤ header.blockLevel

/-- The blocks of a level that a block with the given direct parents has in its past. -/
def LevelPast (D : Dag Hash) (directParents : List Hash) (level : ℕ) : Set Hash :=
  {h | (∃ p ∈ directParents, D.Reaches h p) ∧ M.OnLevel level h}

/-- A DAG nothing of which is pruned: genesis has no parents and occupies all levels, the direct
parents of every other block are an antichain and its header was calculated from them, and the
reachability service knows all blocks and answers exactly. -/
structure Unpruned (D : Dag Hash) : Prop where
  genesis : M.headersStore M.genesisHash
    = some ⟨M.genesisHash, empty, M.maxBlockLevel⟩
  genesisParents : D.parents M.genesisHash = []
  hash : ∀ {h header}, M.headersStore h = some header → header.hash = h
  blockLevel_le : ∀ {h header}, M.headersStore h = some header →
    header.blockLevel ≤ M.maxBlockLevel
  antichain : ∀ {h header}, M.headersStore h = some header →
    IsAntichain D.Reaches {p | p ∈ D.parents h}
  calculated : ∀ {h header}, M.headersStore h = some header → h ≠ M.genesisHash →
    ∃ order pruningPoint, (∀ level hashes, (order level hashes).Perm hashes) ∧
      M.calcBlockParents order pruningPoint (D.parents h) = some header.parentsByLevel
  hasReachabilityData : ∀ {h header}, M.headersStore h = some header →
    M.hasReachabilityData h = true
  isDagAncestorOf : ∀ {a b headerA headerB}, M.headersStore a = some headerA →
    M.headersStore b = some headerB → (M.isDagAncestorOf a b = true ↔ D.Reaches a b)

variable {M} {D : Dag Hash} {order : ℕ → List Hash → List Hash} {pruningPoint : Hash}
  {directParents : List Hash} {headers : List HeaderWithBlockLevel} {level marker : ℕ}

/-- The store has the block. -/
def Known (M : ParentsManager) (h : Hash) : Prop :=
  ∃ header, M.headersStore h = some header

theorem not_mem_expand_empty {S : ℕ → List Hash → Prop} (level : ℕ) (atLevel : List Hash)
    (h : (empty : CompressedParents).expand[level]? = some atLevel) : S level atLevel :=
  absurd h (by simp [empty, expand, expandFrom])

theorem mem_swapIfInBounds {α : Type} {x : α} (l : List α) (i j : ℕ) :
    x ∈ (l.toArray.swapIfInBounds i j).toList ↔ x ∈ l := by
  rw [Array.mem_toList_iff, Array.swapIfInBounds_def]
  split
  · split
    · exact (Array.swap_perm _ _).mem_iff.trans mem_toArray
    · exact mem_toArray
  · exact mem_toArray

/-- What a calculation that returns has read: the headers of all direct parents, one of which is
in the future of the pruning point. -/
theorem calcBlockParents_eq_some {parents : CompressedParents}
    (h : M.calcBlockParents order pruningPoint directParents = some parents) :
    ∃ headers, (∀ header, header ∈ headers ↔ ∃ p ∈ directParents, M.headersStore p = some header) ∧
      (∀ p ∈ directParents, M.Known p) ∧ directParents ≠ [] ∧
      M.collectLevels order headers 0 (M.maxBlockLevel + 1) empty = some parents := by
  obtain ⟨headers, hheaders, h⟩ := Option.bind_eq_some_iff.mp h
  obtain ⟨first, hfirst, h⟩ := Option.bind_eq_some_iff.mp h
  refine ⟨_, fun header => ?_, fun p hp => exists_of_mapM_eq_some hheaders hp, ?_, h⟩
  · exact (mem_swapIfInBounds headers 0 first).trans (mem_of_mapM_eq_some hheaders)
  · rintro rfl
    simp at hfirst

/-- Direct parents of a new block with their headers, whose own parents at every level are the
maximal ones. -/
structure Prepared (M : ParentsManager) (D : Dag Hash) (directParents : List Hash)
    (headers : List HeaderWithBlockLevel) : Prop where
  mem : ∀ header, header ∈ headers ↔ ∃ p ∈ directParents, M.headersStore p = some header
  known : ∀ p ∈ directParents, M.Known p
  nonempty : directParents ≠ []
  antichain : IsAntichain D.Reaches {p | p ∈ directParents}
  maximals : ∀ p ∈ directParents, ∀ {header}, M.headersStore p = some header →
    p ≠ M.genesisHash → ∀ level, MaximalsOf D.Reaches
      (M.parentsAtLevel header.parentsByLevel level) (M.LevelPast D (D.parents p) level)

theorem mem_directAt {a : Hash} : a ∈ directAt headers level ↔
    ∃ header ∈ headers, level ≤ header.blockLevel ∧ header.hash = a := by
  rw [directAt, mem_discover]
  simp [and_assoc]

namespace Unpruned

open scoped Classical

variable (hM : M.Unpruned D) {header : HeaderWithBlockLevel} {parents : CompressedParents}
  {a : Hash} {C G : List Hash}
include hM

/-- The past of a block of the store is in the store. -/
theorem known_of_reaches (hb : M.Known b) (hab : D.Reaches a b) : M.Known a := by
  induction hab using Relation.ReflTransGen.head_induction_on with
  | refl => exact hb
  | @head a c hstep _ ih =>
    obtain ⟨header, hheader⟩ := ih
    by_cases hgenesis : c = M.genesisHash
    · rw [hgenesis, hM.genesisParents] at hstep
      cases hstep
    · obtain ⟨order, pruningPoint, -, hcalc⟩ := hM.calculated hheader hgenesis
      obtain ⟨-, -, hknown, -⟩ := calcBlockParents_eq_some hcalc
      exact hknown _ hstep

/-- Every block has genesis in its past, or is genesis. -/
theorem genesis_reaches (hknown : M.Known h) : D.Reaches M.genesisHash h := by
  induction h using D.wf.induction with
  | _ h ih =>
    obtain ⟨header, hheader⟩ := hknown
    by_cases hgenesis : h = M.genesisHash
    · exact hgenesis ▸ Dag.Reaches.refl h
    · obtain ⟨order, pruningPoint, -, hcalc⟩ := hM.calculated hheader hgenesis
      obtain ⟨-, -, hparents, hne, -⟩ := calcBlockParents_eq_some hcalc
      obtain ⟨p, hp⟩ := exists_mem_of_ne_nil _ hne
      exact (ih p hp (hparents p hp)).trans (Dag.Reaches.of_parent hp)

theorem isDagAncestorOf_eq (ha : M.Known a) (hb : M.Known b) :
    M.isDagAncestorOf a b = decide (D.Reaches a b) := by
  obtain ⟨headerA, hheaderA⟩ := ha
  obtain ⟨headerB, hheaderB⟩ := hb
  rw [Bool.eq_iff_iff, decide_eq_true_eq, hM.isDagAncestorOf hheaderA hheaderB]

omit hM in
@[simp]
theorem length_selfReferring (C : List Hash) : (selfReferring C).length = C.length :=
  length_map _

omit hM in
theorem insertCandidate_selfReferring (C : List Hash) (parent : Hash) :
    insertCandidate (selfReferring C) parent [parent]
      = selfReferring (C.filter (fun c => decide (c ≠ parent)) ++ [parent]) := by
  rw [insertCandidate, selfReferring, selfReferring, filter_map, map_append]
  rfl

/-- A grandparent of the first parent is entered as a candidate. -/
theorem processGrandparent_first {parent : Hash} {i : ℕ} (hi : i < marker)
    (hparent : M.Known parent) (hnew : parent ∉ C) :
    M.processGrandparent level marker (selfReferring C) (parent, i)
      = some (selfReferring (C ++ [parent])) := by
  obtain ⟨header, hheader⟩ := hparent
  simp only [processGrandparent, referenceBlocks, hM.hasReachabilityData hheader, if_true,
    some_bind, if_pos hi, Option.pure_def]
  rw [insertCandidate_selfReferring, filter_eq_self.mpr]
  intro c hc
  exact decide_eq_true fun heq => hnew (heq ▸ hc)

/-- Another grandparent is offered to the candidates. -/
theorem processGrandparent_other {parent : Hash} {i : ℕ} (hi : marker ≤ i)
    (hparent : M.Known parent) (hC : ∀ c ∈ C, M.Known c) :
    M.processGrandparent level marker (selfReferring C) (parent, i)
      = some (selfReferring (offerMaximal D.Reaches C parent)) := by
  obtain ⟨header, hheader⟩ := hparent
  have hkept : (selfReferring C).filter
      (fun c => !c.2.any fun ref => M.isDagAncestorOf ref parent)
      = selfReferring (C.filter fun c => !decide (D.Reaches c parent)) := by
    rw [selfReferring, filter_map]
    congr 1
    refine filter_congr fun c hc => ?_
    simp [hM.isDagAncestorOf_eq (hC c hc) ⟨header, hheader⟩]
  have hany : (selfReferring (C.filter fun c => !decide (D.Reaches c parent))).any
      (fun c => c.2.any fun ref => M.isDagAncestorOf parent ref)
      = (C.filter fun c => !decide (D.Reaches c parent)).any
        fun c => decide (D.Reaches parent c) := by
    rw [selfReferring, any_map, Bool.eq_iff_iff, any_eq_true, any_eq_true]
    refine exists_congr fun c => and_congr_right fun hc => ?_
    simp [hM.isDagAncestorOf_eq ⟨header, hheader⟩ (hC c (mem_of_mem_filter hc))]
  simp only [processGrandparent, referenceBlocks, hM.hasReachabilityData hheader, if_true,
    some_bind, if_neg (Nat.not_lt.mpr hi), Option.pure_def, Bool.not_true, Bool.false_eq_true,
    if_false]
  rw [hkept, hany, length_selfReferring, length_selfReferring, offerMaximal]
  split
  · rw [insertCandidate_selfReferring]
  · rfl

/-- All grandparents of the first parent are entered. -/
theorem processGrandparents_first {ofFirst : List Hash} {start : ℕ}
    (hmarker : start + ofFirst.length ≤ marker) (hknown : ∀ g ∈ ofFirst, M.Known g)
    (hnodup : (C ++ ofFirst).Nodup) :
    (ofFirst.zipIdx start).foldlM (M.processGrandparent level marker) (selfReferring C)
      = some (selfReferring (C ++ ofFirst)) := by
  induction ofFirst generalizing C start with
  | nil => simp
  | cons g ofFirst ih =>
    rw [length_cons] at hmarker
    rw [append_cons] at hnodup ⊢
    have hnew : g ∉ C := by
      have := (nodup_append.mp (nodup_append.mp hnodup).1).2.2
      exact fun hg => this g hg g (mem_singleton_self g) rfl
    rw [zipIdx_cons, foldlM_cons,
      hM.processGrandparent_first (by omega) (hknown g mem_cons_self) hnew]
    exact ih (by omega) (fun g' hg' => hknown g' (mem_cons_of_mem g hg')) hnodup

/-- The other grandparents are offered one after another. -/
theorem processGrandparents_other {others : List Hash} {start : ℕ} (hmarker : marker ≤ start)
    (hothers : ∀ g ∈ others, M.Known g) (hC : ∀ c ∈ C, M.Known c) :
    (others.zipIdx start).foldlM (M.processGrandparent level marker) (selfReferring C)
      = some (selfReferring (others.foldl (offerMaximal D.Reaches) C)) := by
  induction others generalizing C start with
  | nil => rfl
  | cons g others ih =>
    have hg := hothers g mem_cons_self
    rw [zipIdx_cons, foldlM_cons, hM.processGrandparent_other hmarker hg hC, foldl_cons]
    refine ih (Nat.le_succ_of_le hmarker)
      (fun g' hg' => hothers g' (mem_cons_of_mem g hg')) ?_
    intro c hc
    obtain ⟨hcC, -⟩ | ⟨rfl, -⟩ := mem_offerMaximal.mp hc
    · exact hC c hcC
    · exact hg

/-! ### The maximal blocks of a level -/

/-- The header of a direct parent. -/
theorem mem_headers (hp : Prepared M D directParents headers) (h : header ∈ headers) :
    header.hash ∈ directParents ∧ M.headersStore header.hash = some header := by
  obtain ⟨p, hmem, hheader⟩ := (hp.mem header).mp h
  rw [hM.hash hheader]
  exact ⟨hmem, hheader⟩

/-- A direct parent that is not of a level is not genesis. -/
theorem ne_genesis_of_lt (hlevel : level ≤ M.maxBlockLevel)
    (hheader : M.headersStore header.hash = some header) (hlt : header.blockLevel < level) :
    header.hash ≠ M.genesisHash := by
  intro heq
  rw [heq, hM.genesis, Option.some_inj] at hheader
  rw [← hheader] at hlt
  exact absurd hlt (Nat.not_lt.mpr hlevel)

section

variable (hp : Prepared M D directParents headers)
include hp

section

variable (hlevel : level ≤ M.maxBlockLevel)
include hlevel

/-- The blocks of a level in the past of a new block: direct parents of the level, and what the
others have in their past. -/
theorem levelPast_cases (ha : a ∈ M.LevelPast D directParents level) :
    ∃ header ∈ headers, (level ≤ header.blockLevel ∧ D.Reaches a header.hash) ∨
      (header.blockLevel < level ∧ a ∈ M.LevelPast D (D.parents header.hash) level) := by
  obtain ⟨⟨p, hpmem, hreach⟩, hon⟩ := ha
  obtain ⟨header, hheader⟩ := hp.known p hpmem
  have hhash := hM.hash hheader
  refine ⟨header, (hp.mem header).mpr ⟨p, hpmem, hheader⟩, ?_⟩
  rw [hhash]
  by_cases hle : level ≤ header.blockLevel
  · exact .inl ⟨hle, hreach⟩
  · refine .inr ⟨Nat.lt_of_not_le hle, ?_, hon⟩
    obtain rfl | hpast := Dag.reaches_iff_eq_or_inPast.mp hreach
    · -- The direct parent itself is not of the level.
      exfalso
      obtain hgenesis | ⟨header', hheader', hle'⟩ := hon
      · exact hM.ne_genesis_of_lt hlevel (hhash.symm ▸ hheader) (Nat.lt_of_not_le hle)
          (hhash.trans hgenesis)
      · obtain rfl := Option.mem_unique hheader hheader'
        exact hle hle'
    · exact Dag.inPast_iff.mp hpast

/-- The parents of a direct parent that is not of the level are the maximal blocks of it. -/
theorem maximals_below (hmem : header ∈ headers) (hlt : header.blockLevel < level) :
    MaximalsOf D.Reaches (M.parentsAtLevel header.parentsByLevel level)
      (M.LevelPast D (D.parents header.hash) level) := by
  obtain ⟨hdirect, hheader⟩ := hM.mem_headers hp hmem
  exact hp.maximals _ hdirect hheader (hM.ne_genesis_of_lt hlevel hheader hlt) level

/-- They are in the past of the new block. -/
theorem mem_levelPast_of_grandparent (hmem : header ∈ headers) (hlt : header.blockLevel < level)
    {g : Hash} (hg : g ∈ M.parentsAtLevel header.parentsByLevel level) :
    g ∈ M.LevelPast D directParents level := by
  obtain ⟨⟨p, hpar, hreach⟩, hon⟩ := (hM.maximals_below hp hlevel hmem hlt).member g hg
  exact ⟨⟨header.hash, (hM.mem_headers hp hmem).1,
    hreach.trans (Dag.Reaches.of_parent hpar)⟩, hon⟩

end

theorem mem_levelPast_of_direct (ha : a ∈ directAt headers level) :
    a ∈ M.LevelPast D directParents level := by
  obtain ⟨header, hmem, hle, rfl⟩ := mem_directAt.mp ha
  obtain ⟨hdirect, hheader⟩ := hM.mem_headers hp hmem
  exact ⟨⟨header.hash, hdirect, Dag.Reaches.refl _⟩, Or.inr ⟨header, hheader, hle⟩⟩

theorem known_of_mem_levelPast (ha : a ∈ M.LevelPast D directParents level) : M.Known a := by
  obtain ⟨⟨p, hpmem, hreach⟩, -⟩ := ha
  exact hM.known_of_reaches (hp.known p hpmem) hreach

end

omit hM in
/-- The grandparents are the parents of the direct parents below the level. If no direct parent is
of the level, those of one of them come first. -/
theorem exists_grandparents (hne : headers ≠ []) : ∃ ofFirst others,
    M.grandparents headers level = some (ofFirst ++ others, ofFirst.length) ∧
      (directAt headers level ++ ofFirst).Nodup ∧
      (ofFirst = [] ∨ directAt headers level = [] ∧ ∃ first ∈ headers, first.blockLevel < level ∧
        ∀ g ∈ ofFirst, g ∈ M.parentsAtLevel first.parentsByLevel level) ∧
      ∀ g, g ∈ ofFirst ∨ g ∈ others ↔ ∃ header ∈ headers, header.blockLevel < level ∧
        g ∈ M.parentsAtLevel header.parentsByLevel level := by
  by_cases hdirect : directAt headers level = []
  · have hbelow : ∀ header ∈ headers, header.blockLevel < level := by
      intro header hmem
      by_contra hle
      have hin := mem_directAt.mpr ⟨header, hmem, Nat.le_of_not_lt hle, rfl⟩
      exact not_mem_nil (hdirect ▸ hin)
    have hall header := and_iff_left_of_imp (hbelow header)
    obtain ⟨first, rest, rfl⟩ := exists_cons_of_ne_nil hne
    refine ⟨discover [] (M.parentsAtLevel first.parentsByLevel level), _,
      by rw [grandparents, hdirect]; rfl, ?_, .inr ⟨hdirect, first, mem_cons_self,
        hbelow first mem_cons_self, fun g hg => (mem_discover.mp hg).1⟩, fun g => ?_⟩
    · rw [hdirect]
      exact nodup_discover [] _
    · simp only [← and_assoc, hall]
      simp only [mem_discover, parentsOf, tail_cons, mem_flatMap, not_mem_nil, not_false_eq_true,
        and_true, mem_cons, or_and_right, exists_or, exists_eq_left]
      tauto
  · refine ⟨[], _, by rw [grandparents, if_neg (by simpa using hdirect)]; rfl, ?_, .inl rfl,
      fun g => ?_⟩
    · rw [append_nil]
      exact nodup_discover [] _
    · simp [parentsOf, mem_discover, and_assoc]

/-- The parents of a level, up to their order: the candidates that are left once the other
grandparents were offered. -/
theorem levelParents_perm {ofFirst others : List Hash}
    (hgrand : M.grandparents headers level = some (ofFirst ++ others, ofFirst.length))
    (hnodup : (directAt headers level ++ ofFirst).Nodup)
    (hfirst : ∀ c ∈ directAt headers level ++ ofFirst, M.Known c)
    (hothers : ∀ g ∈ others, M.Known g) (horder : ∀ hashes, (order level hashes).Perm hashes) :
    ∃ parents, M.levelParents order headers level = some parents ∧
      parents.Perm (others.foldl (offerMaximal D.Reaches) (directAt headers level ++ ofFirst)) := by
  rw [levelParents, hgrand, some_bind]
  dsimp only
  split
  · next hshort =>
    rw [Bool.and_eq_true, List.isEmpty_iff, beq_iff_eq, length_append] at hshort
    obtain rfl : others = [] := length_eq_zero_iff.mp (by omega)
    rw [hshort.1, append_nil]
    exact ⟨_, rfl, .refl _⟩
  · rw [zipIdx_append, foldlM_append, hM.processGrandparents_first (by omega)
      (fun g hg => hfirst g (mem_append_right _ hg)) hnodup, some_bind,
      hM.processGrandparents_other (by omega) hothers hfirst, some_bind, selfReferring, map_map]
    refine ⟨_, rfl, (horder _).trans ?_⟩
    exact (map_id _).symm ▸ .refl _

/-- **One level**: the parents calculated for a level are the maximal blocks of the level in the
past of the new block. -/
theorem levelParents_maximal (hp : Prepared M D directParents headers)
    (hlevel : level ≤ M.maxBlockLevel) (horder : ∀ hashes, (order level hashes).Perm hashes) :
    ∃ parents, M.levelParents order headers level = some parents ∧
      MaximalsOf D.Reaches parents (M.LevelPast D directParents level) := by
  have hheaders : headers ≠ [] := by
    obtain ⟨p, hpmem⟩ := exists_mem_of_ne_nil _ hp.nonempty
    obtain ⟨header, hheader⟩ := hp.known p hpmem
    exact ne_nil_of_mem ((hp.mem header).mpr ⟨p, hpmem, hheader⟩)
  obtain ⟨ofFirst, others, hgrand, hnodup, hfirst, hmem⟩ := @exists_grandparents M _ level hheaders
  have hoffered : ∀ a, a ∈ directAt headers level ++ ofFirst ∨ a ∈ others ↔
      a ∈ directAt headers level ∨ ∃ header ∈ headers, header.blockLevel < level ∧
        a ∈ M.parentsAtLevel header.parentsByLevel level := by
    intro a
    rw [mem_append, or_assoc, hmem]
  have hpast : ∀ a, a ∈ directAt headers level ++ ofFirst ∨ a ∈ others →
      a ∈ M.LevelPast D directParents level := by
    intro a ha
    obtain ha | ⟨header, hin, hlt, hpar⟩ := (hoffered a).mp ha
    · exact hM.mem_levelPast_of_direct hp ha
    · exact hM.mem_levelPast_of_grandparent hp hlevel hin hlt hpar
  have hanti : IsAntichain D.Reaches {c | c ∈ directAt headers level ++ ofFirst} := by
    obtain rfl | ⟨hdirect, first, hin, hlt, hsub⟩ := hfirst
    · rw [append_nil]
      refine hp.antichain.subset fun a ha => ?_
      obtain ⟨header, hin, -, rfl⟩ := mem_directAt.mp ha
      exact (hM.mem_headers hp hin).1
    · rw [hdirect]
      exact (hM.maximals_below hp hlevel hin hlt).antichain.subset hsub
  obtain ⟨parents, hparents, hperm⟩ := hM.levelParents_perm hgrand hnodup
    (fun c hc => hM.known_of_mem_levelPast hp (hpast c (.inl hc)))
    (fun g hg => hM.known_of_mem_levelPast hp (hpast g (.inr hg))) horder
  refine ⟨parents, hparents, (((MaximalsOf.of_antichain hanti).foldl_offer others).widen hpast
    fun a ha => ?_).congr (fun a => hperm.mem_iff) fun a => Iff.rfl⟩
  obtain ⟨header, hin, ⟨hle, hreach⟩ | ⟨hlt, hbelow⟩⟩ := hM.levelPast_cases hp hlevel ha
  · exact ⟨header.hash, (hoffered _).mpr (.inl (mem_directAt.mpr ⟨header, hin, hle, rfl⟩)), hreach⟩
  · obtain ⟨g, hg, hag⟩ := (hM.maximals_below hp hlevel hin hlt).covers a hbelow
    exact ⟨g, (hoffered g).mpr (.inr ⟨header, hin, hlt, hg⟩), hag⟩

section

variable (hp : Prepared M D directParents headers)
include hp

/-! ### All levels -/

theorem genesis_mem_levelPast (level : ℕ) :
    M.genesisHash ∈ M.LevelPast D directParents level := by
  obtain ⟨p, hpmem⟩ := exists_mem_of_ne_nil _ hp.nonempty
  exact ⟨⟨p, hpmem, hM.genesis_reaches (hp.known p hpmem)⟩, Or.inl rfl⟩

/-- Genesis is the one maximal block of a level if all blocks of the level are in its past. -/
theorem maximals_genesis (h : ∀ a ∈ M.LevelPast D directParents level, D.Reaches a M.genesisHash) :
    MaximalsOf D.Reaches [M.genesisHash] (M.LevelPast D directParents level) where
  member c hc := mem_singleton.mp hc ▸ hM.genesis_mem_levelPast hp level
  antichain := by
    intro a ha b hb hne
    exact absurd ((mem_singleton.mp ha).trans (mem_singleton.mp hb).symm) hne
  covers a ha := ⟨M.genesisHash, mem_singleton_self _, h a ha⟩

/-- A header is complete once the levels past those it lists have genesis only. -/
theorem maximals_complete (hlength : 0 < parents.expand.length)
    (hlisted : ∀ l atLevel, parents.expand[l]? = some atLevel →
      MaximalsOf D.Reaches atLevel (M.LevelPast D directParents l))
    (hmissing : ∀ high, parents.expand.length ≤ high →
      ∀ a ∈ M.LevelPast D directParents high, D.Reaches a M.genesisHash) (level : ℕ) :
    MaximalsOf D.Reaches (M.parentsAtLevel parents level)
      (M.LevelPast D directParents level) := by
  rw [parentsAtLevel, get_eq]
  cases hget : parents.expand[level]? with
  | some atLevel => exact hlisted level atLevel hget
  | none =>
    have hruns : parents.runs.isEmpty = false := by
      cases hruns : parents.runs with
      | nil => exact absurd (by rw [expand, hruns]; rfl) (ne_nil_of_length_pos hlength)
      | cons run runs => rfl
    rw [hruns]
    exact hM.maximals_genesis hp (hmissing level (getElem?_eq_none_iff.mp hget))

end

omit hM in
/-- A block of a level is on all lower levels. -/
theorem levelPast_antitone {low high : ℕ} (h : low ≤ high) :
    M.LevelPast D directParents high ⊆ M.LevelPast D directParents low := by
  rintro a ⟨hpast, rfl | ⟨header, hheader, hle⟩⟩
  · exact ⟨hpast, Or.inl rfl⟩
  · exact ⟨hpast, Or.inr ⟨header, hheader, h.trans hle⟩⟩

/-- Above the highest level there is genesis only. -/
theorem levelPast_high (h : M.maxBlockLevel < level) (ha : a ∈ M.LevelPast D directParents level) :
    a = M.genesisHash := by
  obtain ⟨-, hgenesis | ⟨header, hheader, hle⟩⟩ := ha
  · exact hgenesis
  · exact absurd (hM.blockLevel_le hheader) (Nat.not_le.mpr (h.trans_le hle))

/-- **All levels**: if the levels listed so far are right, so is every level of the result, the
missing ones read as genesis. There is a result if the number of levels fits a byte. -/
theorem collectLevels_maximal (hp : Prepared M D directParents headers)
    (horder : ∀ level hashes, (order level hashes).Perm hashes) {remaining : ℕ}
    (hlevel : level + remaining = M.maxBlockLevel + 1)
    (hlength : parents.expand.length = level)
    (hlisted : ∀ l atLevel, parents.expand[l]? = some atLevel →
      MaximalsOf D.Reaches atLevel (M.LevelPast D directParents l)) :
    (M.maxBlockLevel < 255 →
      ∃ result, M.collectLevels order headers level remaining parents = some result) ∧
    ∀ result, M.collectLevels order headers level remaining parents = some result → ∀ l,
      MaximalsOf D.Reaches (M.parentsAtLevel result l) (M.LevelPast D directParents l) := by
  induction remaining generalizing level parents with
  | zero =>
    -- All levels are listed.
    refine ⟨fun _ => ⟨parents, rfl⟩, fun result h => ?_⟩
    cases h
    refine hM.maximals_complete hp (by omega) hlisted fun high hhigh a ha => ?_
    rw [hM.levelPast_high (by omega) ha]
  | succ remaining ih =>
    obtain ⟨atLevel, hatLevel, hmaximal⟩ := hM.levelParents_maximal hp
      (show level ≤ M.maxBlockLevel by omega) (horder level)
    rw [collectLevels, hatLevel, some_bind]
    split
    · next hbreak =>
      -- Genesis alone at this level: so it is on all higher levels.
      rw [Bool.and_eq_true, decide_eq_true_eq, beq_iff_eq] at hbreak
      refine ⟨fun _ => ⟨parents, rfl⟩, fun result h => ?_⟩
      cases h
      refine hM.maximals_complete hp (by omega) hlisted fun high hhigh a ha => ?_
      obtain ⟨c, hc, hac⟩ := hmaximal.covers a (levelPast_antitone (by omega) ha)
      rw [hbreak.2, mem_singleton] at hc
      exact hc ▸ hac
    · cases hpush : parents.push 255 atLevel with
      | none =>
        refine ⟨fun hmax => ?_, fun _ h => (by cases h)⟩
        obtain ⟨_, hsome⟩ := exists_push atLevel (show parents.expand.length < 255 by omega)
        cases hpush.symm.trans hsome
      | some parents' =>
        have hexpand := expand_of_push hpush
        refine ih (by omega) (by rw [hexpand, length_append, hlength]; rfl) ?_
        intro l' atLevel' hget
        rw [hexpand, getElem?_append, getElem?_singleton] at hget
        split_ifs at hget with hlt hzero
        · exact hlisted l' atLevel' hget
        · cases hget
          obtain rfl : l' = level := by omega
          exact hmaximal

/-- **Every header**: the parents of a block at a level are the maximal blocks of the level in its
past. -/
theorem maximals_parentsAtLevel (hheader : M.headersStore h = some header)
    (hne : h ≠ M.genesisHash) (level : ℕ) :
    MaximalsOf D.Reaches (M.parentsAtLevel header.parentsByLevel level)
      (M.LevelPast D (D.parents h) level) := by
  induction h using D.wf.induction generalizing header level with
  | _ h ih =>
    obtain ⟨order, pruningPoint, horder, hcalc⟩ := hM.calculated hheader hne
    obtain ⟨headers, hmem, hknown, hnonempty, hlevels⟩ := calcBlockParents_eq_some hcalc
    exact (hM.collectLevels_maximal ⟨hmem, hknown, hnonempty, hM.antichain hheader, ih⟩ horder
      (Nat.zero_add _) rfl not_mem_expand_empty).2 _ hlevels level

/-- A calculation with a direct parent in the future of the pruning point returns. -/
theorem exists_calcBlockParents (horder : ∀ level hashes, (order level hashes).Perm hashes)
    (hknown : ∀ p ∈ directParents, M.Known p)
    (hanti : IsAntichain D.Reaches {p | p ∈ directParents})
    (hpruning : ∃ p ∈ directParents, M.isDagAncestorOf pruningPoint p = true)
    (hmax : M.maxBlockLevel < 255) :
    ∃ parents, M.calcBlockParents order pruningPoint directParents = some parents := by
  obtain ⟨headers, hheaders⟩ := exists_forall₂ hknown
  have hmap := mapM_eq_some.mpr hheaders
  obtain ⟨first, hfirst⟩ : ∃ first, directParents.findIdx?
      (fun parent => M.isDagAncestorOf pruningPoint parent) = some first := by
    refine Option.isSome_iff_exists.mp ?_
    rwa [findIdx?_isSome, any_eq_true]
  have hnonempty : directParents ≠ [] := by
    obtain ⟨p, hp, -⟩ := hpruning
    exact ne_nil_of_mem hp
  rw [calcBlockParents, hmap, hfirst]
  refine (hM.collectLevels_maximal ⟨fun header => ?_, hknown, hnonempty, hanti,
    fun _ _ => hM.maximals_parentsAtLevel⟩ horder (Nat.zero_add _) rfl not_mem_expand_empty).1 hmax
  exact (mem_swapIfInBounds headers 0 first).trans (mem_of_mapM_eq_some hmap)

end Unpruned

/-- **Parents by level**: in a DAG whose headers were all calculated this way, the parents
calculated for a new block at a level, the missing levels read as genesis, are exactly the blocks of
the level in its past that are not in the past of another such block. -/
theorem calcBlockParents_maximal (M : ParentsManager) (D : Dag Hash) (hM : M.Unpruned D)
    (order : ℕ → List Hash → List Hash) (horder : ∀ level hashes, (order level hashes).Perm hashes)
    (pruningPoint : Hash) (directParents : List Hash) (hknown : ∀ p ∈ directParents, M.Known p)
    (hanti : IsAntichain D.Reaches {p | p ∈ directParents}) :
    (M.maxBlockLevel < 255 → (∃ p ∈ directParents, M.isDagAncestorOf pruningPoint p = true) →
      ∃ parents, M.calcBlockParents order pruningPoint directParents = some parents) ∧
    ∀ parents, M.calcBlockParents order pruningPoint directParents = some parents →
      ∀ level a, a ∈ M.parentsAtLevel parents level ↔
        a ∈ M.LevelPast D directParents level ∧
          ¬ ∃ b ∈ M.LevelPast D directParents level, D.InPast a b := by
  refine ⟨fun hmax hpruning => hM.exists_calcBlockParents horder hknown hanti hpruning hmax, ?_⟩
  intro parents hcalc level a
  obtain ⟨headers, hmem, -, hnonempty, hlevels⟩ := calcBlockParents_eq_some hcalc
  rw [((hM.collectLevels_maximal ⟨hmem, hknown, hnonempty, hanti,
    fun _ _ => hM.maximals_parentsAtLevel⟩ horder (Nat.zero_add _) rfl not_mem_expand_empty).2 _
    hlevels level).mem_iff]
  refine and_congr_right fun ha => ?_
  constructor
  · rintro hmax ⟨b, hb, hpast⟩
    exact hpast.ne (hmax b hb hpast.reaches).symm
  · intro hnone b hb hreach
    obtain rfl | hpast := Dag.reaches_iff_eq_or_inPast.mp hreach
    · rfl
    · exact absurd ⟨b, hb, hpast⟩ hnone

/-! ### A small DAG -/

/-- Two children of genesis, the first one of a higher level, and a block that merges them. -/
def diamondHeaders : List HeaderWithBlockLevel :=
  [⟨0, empty, 2⟩, ⟨1, ⟨[(1, [0])], by simp⟩, 1⟩, ⟨2, ⟨[(1, [0])], by simp⟩, 0⟩,
    ⟨3, ⟨[(1, [1, 2]), (2, [1])], by simp⟩, 0⟩]

/-- The edges of the diamond. -/
def diamondEdges : List (Hash × List Hash) :=
  [(1, [0]), (2, [0]), (3, [1, 2])]

/-- The direct parents of every block. -/
def diamondParents (h : Hash) : List Hash :=
  ((diamondEdges.find? fun e => e.1 == h).map Prod.snd).getD []

/-- The stores with these headers. -/
def diamond : ParentsManager where
  maxBlockLevel := 2
  genesisHash := 0
  headersStore h := diamondHeaders.find? fun header => header.hash == h
  isDagAncestorOf a b := (Dag.ancestors diamondParents 3 b).contains a
  hasReachabilityData _ := true
  originChildren := []

theorem diamondParents_lt (b : Hash) : ∀ p ∈ diamondParents b, p.val < b.val := by
  intro p hp
  rw [diamondParents] at hp
  cases hfind : diamondEdges.find? fun e => e.1 == b with
  | none => exact absurd (hfind ▸ hp) not_mem_nil
  | some e =>
    have hall : ∀ e ∈ diamondEdges, ∀ p ∈ e.2, p.val < e.1.val := by
      simp [diamondEdges]
    have hb := find?_some hfind
    rw [hfind] at hp
    rw [← eq_of_beq hb]
    exact hall e (mem_of_find?_eq_some hfind) p hp

/-- The DAG of the direct parents. -/
def diamondDag : Dag Hash :=
  Dag.ofRank diamondParents Fin.val diamondParents_lt

theorem diamond_store {header : HeaderWithBlockLevel}
    (hheader : diamond.headersStore h = some header) :
    header ∈ diamondHeaders ∧ header.hash = h := by
  have hfind : diamondHeaders.find? (fun header => header.hash == h) = some header := hheader
  have hhash := find?_some hfind
  exact ⟨mem_of_find?_eq_some hfind, eq_of_beq hhash⟩

theorem diamond_reaches {a : Hash} (hb : diamond.Known b) :
    diamond.isDagAncestorOf a b = true ↔ diamondDag.Reaches a b := by
  obtain ⟨header, hheader⟩ := hb
  obtain ⟨hmem, rfl⟩ := diamond_store hheader
  have hdepth : ∀ header ∈ diamondHeaders, header.hash.val ≤ 3 := by
    decide +kernel
  exact contains_iff_mem.trans
    (Dag.mem_ancestors (D := diamondDag) diamondParents_lt (hdepth header hmem))

/-- Known blocks of which none reaches another, by evaluation. -/
theorem diamond_antichain {directParents : List Hash}
    (hcheck : (directParents.all fun b => (diamond.headersStore b).isSome &&
      directParents.all fun a => !diamond.isDagAncestorOf a b || a == b) = true) :
    (∀ p ∈ directParents, diamond.Known p) ∧
      IsAntichain diamondDag.Reaches {p | p ∈ directParents} := by
  simp only [all_eq_true, Bool.and_eq_true, Option.isSome_iff_exists] at hcheck
  refine ⟨fun p hp => (hcheck p hp).1, fun a ha b hb hne hreach => hne ?_⟩
  have hpair := (hcheck b hb).2 a ha
  rw [(diamond_reaches (hcheck b hb).1).mpr hreach] at hpair
  exact eq_of_beq hpair

theorem diamond_unpruned : diamond.Unpruned diamondDag where
  genesis := by decide +kernel
  genesisParents := by decide +kernel
  hash hheader := (diamond_store hheader).2
  blockLevel_le hheader :=
    (show ∀ header ∈ diamondHeaders, header.blockLevel ≤ 2 by decide) _ (diamond_store hheader).1
  antichain := by
    intro h header hheader
    obtain ⟨hmem, rfl⟩ := diamond_store hheader
    have hcheck : ∀ header ∈ diamondHeaders, ((diamondParents header.hash).all fun b =>
        (diamond.headersStore b).isSome && (diamondParents header.hash).all fun a =>
          !diamond.isDagAncestorOf a b || a == b) = true := by
      decide +kernel
    exact (diamond_antichain (hcheck header hmem)).2
  calculated := by
    intro h header hheader hne
    obtain ⟨hmem, rfl⟩ := diamond_store hheader
    have hcheck : ∀ header ∈ diamondHeaders, header.hash ≠ 0 →
        diamond.calcBlockParents (fun _ hashes => hashes) 0 (diamondParents header.hash)
          = some header.parentsByLevel := by
      decide +kernel
    exact ⟨fun _ hashes => hashes, 0, fun _ hashes => List.Perm.refl hashes,
      hcheck header hmem hne⟩
  hasReachabilityData _ := rfl
  isDagAncestorOf _ hb := diamond_reaches ⟨_, hb⟩

/-- The parents of a block on top of the diamond: the merging block on the lowest level, its parent
of the higher level above, and genesis past that. -/
theorem calcBlockParents_maximal_diamond :
    (∃ parents, diamond.calcBlockParents (fun _ hashes => hashes) 0 [3] = some parents) ∧
    ∀ parents, diamond.calcBlockParents (fun _ hashes => hashes) 0 [3] = some parents →
      ∀ level a, a ∈ diamond.parentsAtLevel parents level ↔
        a ∈ diamond.LevelPast diamondDag [3] level ∧
          ¬ ∃ b ∈ diamond.LevelPast diamondDag [3] level, diamondDag.InPast a b := by
  obtain ⟨hknown, hanti⟩ := @diamond_antichain [3] (by decide +kernel)
  obtain ⟨hreturns, hmaximal⟩ := calcBlockParents_maximal diamond diamondDag diamond_unpruned
    (fun _ hashes => hashes) (fun _ hashes => List.Perm.refl hashes) 0 [3] hknown hanti
  exact ⟨hreturns (by decide) ⟨3, mem_singleton_self 3, by decide +kernel⟩, hmaximal⟩

example : (diamond.calcBlockParents (fun _ hashes => hashes) 0 [3]).map expand
    = some [[3], [1]] := by
  decide +kernel

end ParentsManager

end KeryxNode
