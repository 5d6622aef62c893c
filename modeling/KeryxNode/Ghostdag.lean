import Mathlib.Data.List.Sort
import Mathlib.Data.Prod.Lex
import KeryxNode.Collateral
import KeryxNode.Dag
import KeryxNode.OrdMap
import KeryxNode.Worklist

/-!
# GHOSTDAG

The colouring of the blocks a new block merges (`consensus/src/processes/ghostdag`). The selected
parent is the parent of highest blue work. The blocks in the past of the new block that are not in
the past of the selected parent, its mergeset, are taken in order of blue work, and each is coloured
blue unless that would leave some blue block with more than `k` blue blocks in its anticone. How
many blues a blue block has in its anticone is not counted anew: every block stores the counts that
its own mergeset changed, and the count that holds for a block is found by walking down the selected
chain to the first entry.

A panic of the code is `none`. Loops without a bound of their own are given rounds by the number of
blocks. Blue scores are taken as natural numbers; blue work is a `Uint192`, whose sums wrap around
without a panic in a release build.
-/

namespace KeryxNode

open OrdMap

namespace Ghostdag

/-- The virtual block that all blocks descend from. -/
def origin : Hash :=
  Fin.ofNat (2 ^ 256) (254 * ((2 ^ 256 - 1) / 255))

/-- The colouring stored for a block. -/
structure GhostdagData where
  blueScore : ℕ := 0
  blueWork : ℕ := 0
  selectedParent : Hash
  mergesetBlues : List Hash
  mergesetReds : List Hash := []
  /-- The anticone sizes that the mergeset of the block changed. -/
  bluesAnticoneSizes : OrdMap Hash ℕ

namespace GhostdagData

/-- A colouring with nothing but the selected parent. -/
def newWithSelectedParent (selectedParent : Hash) : GhostdagData where
  selectedParent
  mergesetBlues := [selectedParent]
  bluesAnticoneSizes := empty.insert selectedParent 0

/-- Adds a blue block with its anticone size; the sizes of the blues in its anticone go up. -/
def addBlue (d : GhostdagData) (block : Hash) (blueAnticoneSize : ℕ)
    (blockBluesAnticoneSizes : OrdMap Hash ℕ) : GhostdagData :=
  { d with
    mergesetBlues := d.mergesetBlues ++ [block]
    bluesAnticoneSizes := blockBluesAnticoneSizes.entries.foldl
      (fun sizes e => sizes.insert e.1 (e.2 + 1))
      (d.bluesAnticoneSizes.insert block blueAnticoneSize) }

/-- Adds a red block. -/
def addRed (d : GhostdagData) (block : Hash) : GhostdagData :=
  { d with mergesetReds := d.mergesetReds ++ [block] }

end GhostdagData

/-- The colouring of genesis. -/
def genesisGhostdagData : GhostdagData :=
  { selectedParent := origin, mergesetBlues := [], bluesAnticoneSizes := empty }

/-- The colouring of the origin. -/
def originGhostdagData : GhostdagData :=
  { selectedParent := 0, mergesetBlues := [], bluesAnticoneSizes := empty }

/-- The parts of a header that enter the blue work: the target its bits stand for, and the score
that selects the work floor of a level. -/
structure Header where
  target : ℕ
  daaScore : ℕ := 0

/-- The stores of a block DAG, on one block level. The bound `k` fits its type with one to spare. -/
structure GhostdagManager where
  genesisHash : Hash
  genesis_ne : genesisHash ≠ origin
  k : ℕ
  k_lt : k + 1 < 2 ^ 16
  level : ℕ := 0
  /-- The least work a block of the level stands for, by score; read above level 0 only. -/
  levelWork : ℕ → ℕ := fun _ => 0
  relationsStore : OrdMap Hash (List Hash)
  headersStore : OrdMap Hash Header
  ghostdagStore : OrdMap Hash GhostdagData

namespace GhostdagManager

variable (M : GhostdagManager)

/-- The parents of a block; none for a block that is not stored. -/
def parents (h : Hash) : List Hash :=
  (M.relationsStore.get? h).getD []

/-- The reachability service: whether a block is another one or in its past. A panic for a block
it does not know. -/
def isDagAncestorOf (a b : Hash) : Option Bool :=
  if M.relationsStore.contains a && M.relationsStore.contains b then
    some ((Dag.ancestors M.parents M.relationsStore.size b).contains a)
  else none

/-! ### Order -/

/-- Blocks are ordered by blue work, then by hash. -/
def sortableBlock (h : Hash) : Option (ℕ ×ₗ Hash) :=
  (M.ghostdagStore.get? h).map fun d => toLex (d.blueWork, h)

/-- The parent of highest blue work. -/
def findSelectedParent (parents : List Hash) : Option Hash := do
  let blocks ← parents.mapM M.sortableBlock
  let best ← blocks.max?
  return (ofLex best).2

/-- The blocks in ascending order. -/
def sortBlocks (blocks : List Hash) : Option (List Hash) := do
  let sortable ← blocks.mapM M.sortableBlock
  return (sortable.insertionSort (· ≤ ·)).map fun b => (ofLex b).2

/-! ### The mergeset -/

/-- A search for the mergeset: blocks to expand, blocks found, and blocks known to be in the past
of the selected parent. -/
structure MergesetSearch where
  queue : List Hash
  mergeset : List Hash
  past : List Hash := []

/-- One parent of an expanded block. -/
def visitParent (selectedParent : Hash) (s : MergesetSearch) (parent : Hash) :
    Option MergesetSearch :=
  if parent ∈ s.mergeset ∨ parent ∈ s.past then some s
  else do
    if ← M.isDagAncestorOf parent selectedParent then
      return { s with past := parent :: s.past }
    else
      return { s with queue := s.queue ++ [parent], mergeset := s.mergeset ++ [parent] }

/-- Expands the queue until it is empty. -/
def searchMergeset (selectedParent : Hash) : ℕ → MergesetSearch → Option (List Hash)
  | _, ⟨[], mergeset, _⟩ => some mergeset
  | 0, ⟨_ :: _, _, _⟩ => none
  | rounds + 1, ⟨current :: queue, mergeset, past⟩ => do
    let currentParents ← M.relationsStore.get? current
    let s ← currentParents.foldlM (M.visitParent selectedParent) ⟨queue, mergeset, past⟩
    searchMergeset selectedParent rounds s

/-- The mergeset without the selected parent. -/
def unorderedMergesetWithoutSelectedParent (selectedParent : Hash) (parents : List Hash) :
    Option (List Hash) :=
  let queue := parents.filter fun p => decide (p ≠ selectedParent)
  M.searchMergeset selectedParent (M.relationsStore.size + parents.length)
    ⟨queue, Worklist.discover [] queue, []⟩

/-- The mergeset in consensus order. -/
def orderedMergesetWithoutSelectedParent (selectedParent : Hash) (parents : List Hash) :
    Option (List Hash) := do
  M.sortBlocks (← M.unorderedMergesetWithoutSelectedParent selectedParent parents)

/-! ### Colouring -/

/-- The size found for a block, starting with some sizes and going on with those of a selected
parent. A panic if the walk reaches genesis. -/
def findAnticoneSize (block : Hash) : ℕ → OrdMap Hash ℕ → Hash → Option ℕ
  | 0, _, _ => none
  | rounds + 1, sizes, selectedParent =>
    match sizes.get? block with
    | some size => some size
    | none =>
      if selectedParent = M.genesisHash ∨ selectedParent = origin then none
      else do
        let data ← M.ghostdagStore.get? selectedParent
        findAnticoneSize block rounds data.bluesAnticoneSizes data.selectedParent

/-- The blue anticone size of a block from the view of a colouring. -/
def blueAnticoneSize (block : Hash) (context : GhostdagData) : Option ℕ :=
  M.findAnticoneSize block (M.relationsStore.size + 1) context.bluesAnticoneSizes
    context.selectedParent

/-- The state of the colouring of a candidate. -/
inductive ColoringState where
  | blue
  | red
  | pending
  deriving DecidableEq

/-- The colour of a candidate; a blue one comes with its anticone size and the sizes of the blues
in its anticone. -/
inductive ColoringOutput where
  | blue (blueAnticoneSize : ℕ) (bluesAnticoneSizes : OrdMap Hash ℕ)
  | red

/-- The blue peers of one chain block. A peer that is not in the past of the candidate is in its
anticone and counts; a violation of the bound makes the candidate red. -/
def checkPeers (newBlockData : GhostdagData) (candidate : Hash) :
    List Hash → OrdMap Hash ℕ × ℕ → Option (ColoringState × (OrdMap Hash ℕ × ℕ))
  | [], acc => some (.pending, acc)
  | peer :: peers, (sizes, size) => do
    if ← M.isDagAncestorOf peer candidate then
      checkPeers newBlockData candidate peers (sizes, size)
    else
      let peerSize ← M.blueAnticoneSize peer newBlockData
      let acc := (sizes.insert peer peerSize, size + 1)
      if M.k < size + 1 then return (.red, acc)
      else if peerSize = M.k then return (.red, acc)
      -- The assertion that no blue anticone is larger than `k`.
      else if peerSize ≤ M.k then checkPeers newBlockData candidate peers acc
      else none

/-- One chain block, which has no hash if it is the new block itself. -/
def checkBlueCandidateWithChainBlock (newBlockData : GhostdagData) (hash : Option Hash)
    (data : GhostdagData) (candidate : Hash) (acc : OrdMap Hash ℕ × ℕ) :
    Option (ColoringState × (OrdMap Hash ℕ × ℕ)) :=
  match hash with
  | none => M.checkPeers newBlockData candidate data.mergesetBlues acc
  | some hash => do
    if ← M.isDagAncestorOf hash candidate then return (.blue, acc)
    else M.checkPeers newBlockData candidate data.mergesetBlues acc

/-- The walk down the selected chain. -/
def checkChain (newBlockData : GhostdagData) (candidate : Hash) :
    ℕ → Option Hash → GhostdagData → OrdMap Hash ℕ × ℕ → Option ColoringOutput
  | 0, _, _, _ => none
  | rounds + 1, hash, data, acc => do
    let (state, acc) ← M.checkBlueCandidateWithChainBlock newBlockData hash data candidate acc
    match state with
    | .blue => return .blue acc.2 acc.1
    | .red => return .red
    | .pending => do
      let next ← M.ghostdagStore.get? data.selectedParent
      checkChain newBlockData candidate rounds (some data.selectedParent) next acc

/-- The colour of a candidate. The number of blues is compared as a 16-bit number. -/
def checkBlueCandidate (newBlockData : GhostdagData) (candidate : Hash) :
    Option ColoringOutput :=
  if newBlockData.mergesetBlues.length % 2 ^ 16 = M.k + 1 then some .red
  else
    M.checkChain newBlockData candidate (M.relationsStore.size + 1) none newBlockData
      (empty, 0)

/-- Colours one block of the mergeset. -/
def colourBlock (newBlockData : GhostdagData) (candidate : Hash) : Option GhostdagData := do
  match ← M.checkBlueCandidate newBlockData candidate with
  | .blue size sizes => return newBlockData.addBlue candidate size sizes
  | .red => return newBlockData.addRed candidate

/-- Colours the mergeset of a new block. -/
def colourMergeset (selectedParent : Hash) (parents : List Hash) : Option GhostdagData := do
  let mergeset ← M.orderedMergesetWithoutSelectedParent selectedParent parents
  mergeset.foldlM M.colourBlock (.newWithSelectedParent selectedParent)

/-! ### Score and work -/

/-- The work a target stands for; a panic if it does not fit 192 bits. -/
def calcWork (target : ℕ) : Option ℕ :=
  let work := (2 ^ 256 - 1 - target) / (target + 1) + 1
  if work < 2 ^ 192 then some work else none

/-- The work of a block, at least what a block of the level stands for. -/
def blockWork (h : Hash) : Option ℕ := do
  let header ← M.headersStore.get? h
  let work ← calcWork header.target
  return if M.level = 0 then work else max work (M.levelWork header.daaScore)

/-- Sets blue score and blue work: those of the selected parent and of the merged blues. The works
are summed up, and the sum is added to the work of the selected parent, modulo `2 ^ 192`. -/
def finalizeScoreAndWork (d : GhostdagData) : Option GhostdagData := do
  let parentData ← M.ghostdagStore.get? d.selectedParent
  let works ← d.mergesetBlues.mapM M.blockWork
  return { d with
    blueScore := parentData.blueScore + d.mergesetBlues.length
    blueWork := (parentData.blueWork + works.sum % 2 ^ 192) % 2 ^ 192 }

/-- The colouring of a new block with the given parents. -/
def ghostdag (parents : List Hash) : Option GhostdagData :=
  if parents.isEmpty then none
  else do
    let selectedParent ← M.findSelectedParent parents
    if selectedParent = origin then
      return .newWithSelectedParent selectedParent
    else
      M.finalizeScoreAndWork (← M.colourMergeset selectedParent parents)

/-! ### Growing a DAG -/

/-- The stores with genesis alone, below the virtual origin. -/
def init (genesisHash : Hash) (genesis_ne : genesisHash ≠ origin) (genesis : Header) (k : ℕ)
    (k_lt : k + 1 < 2 ^ 16) (level : ℕ) (levelWork : ℕ → ℕ) : GhostdagManager where
  genesisHash
  genesis_ne
  k
  k_lt
  level
  levelWork
  relationsStore := (empty.insert origin []).insert genesisHash [origin]
  headersStore := empty.insert genesisHash genesis
  ghostdagStore :=
    (empty.insert origin originGhostdagData).insert genesisHash genesisGhostdagData

/-- A block to add. -/
structure NewBlock where
  hash : Hash
  header : Header
  parents : List Hash

/-- Stores a block with its colouring. -/
def insertBlock (b : NewBlock) (data : GhostdagData) : GhostdagManager :=
  { M with
    relationsStore := M.relationsStore.insert b.hash b.parents
    headersStore := M.headersStore.insert b.hash b.header
    ghostdagStore := M.ghostdagStore.insert b.hash data }

/-- Adds a block whose parents are blocks of the DAG. -/
def addBlock (b : NewBlock) : Option GhostdagManager :=
  if M.relationsStore.contains b.hash || b.parents.contains origin then none
  else (M.ghostdag b.parents).map (M.insertBlock b)

/-- Adds blocks one by one. -/
def addBlocks (blocks : List NewBlock) : Option GhostdagManager :=
  blocks.foldlM addBlock M

end GhostdagManager

end Ghostdag

end KeryxNode
