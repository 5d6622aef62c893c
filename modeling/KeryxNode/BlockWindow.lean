import Mathlib.Data.Finset.Card
import Mathlib.Data.Finset.Dedup
import Mathlib.Data.List.Sort
import KeryxNode.Ghostdag

/-!
# Block Windows

The sampled windows that difficulty and median time are computed from
(`consensus/src/processes/window.rs`). The mergeset of a block is taken in descending order, the
selected parent first, and every block of it that is not too old gets the next DAA index; a block is
sampled if its index is a multiple of the sample rate. A window keeps the sampled blocks of highest
blue work over the mergesets of the selected chain. It is found by walking down the chain, or from
the window cached for the selected parent, or by a walk that ends in a cached window.

The DAA score of a block is that of its selected parent and the number of mergeset blocks that
count. From the `h5` activation on, at most twenty blocks of a mergeset that share their selected
parent count.

A panic of the code is `none`; blocks that an iterator would read lazily are read at once. Scores
are taken as natural numbers.
-/

namespace KeryxNode

open Ghostdag

/-! ### Heaps -/

section Heaps

variable {α : Type} [LinearOrder α]

/-- A heap with the least element on top, as the ascending list of its elements. -/
structure MinHeap (α : Type) [LinearOrder α] where
  elems : List α
  sorted : elems.Pairwise (· ≤ ·)

namespace MinHeap

/-- The heap without elements. -/
def empty : MinHeap α :=
  ⟨[], List.Pairwise.nil⟩

/-- The number of elements. -/
def len (h : MinHeap α) : ℕ :=
  h.elems.length

/-- The least element. -/
def peek (h : MinHeap α) : Option α :=
  h.elems.head?

/-- Removes the least element. -/
def pop (h : MinHeap α) : MinHeap α :=
  ⟨h.elems.tail, h.sorted.tail⟩

/-- Adds an element. -/
def push (h : MinHeap α) (x : α) : MinHeap α :=
  ⟨h.elems.orderedInsert (· ≤ ·) x, h.sorted.orderedInsert x _⟩

/-- Adds all elements of another heap. -/
def append (h h' : MinHeap α) : MinHeap α :=
  h'.elems.foldl push h

end MinHeap

end Heaps

namespace Window

/-- A block with its blue work, ordered by blue work and then by hash. -/
abbrev SortableBlock := ℕ ×ₗ Hash

/-- The hash of a sortable block. -/
def SortableBlock.hash (b : SortableBlock) : Hash :=
  (ofLex b).2

/-! ### Mergesets in descending order -/

section Merge

variable {α : Type*} [LinearOrder α]

/-- The elements of a second list that come before a given one, then that one and what follows. -/
def mergeInto (a : α) (l : List α) (next : List α → Option (List α)) :
    List α → Option (List α)
  | [] => some (a :: l)
  | b :: r =>
    if b < a then (next (b :: r)).map (a :: ·)
    else if a < b then (mergeInto a l next r).map (b :: ·)
    else none

/-- Merges two descending lists. An element of both is a panic. -/
def mergeJoin : List α → List α → Option (List α)
  | [], r => some r
  | a :: l, r => mergeInto a l (mergeJoin l) r

end Merge

end Window

namespace Ghostdag.GhostdagData

/-- The number of blocks in the mergeset. -/
def mergesetSize (d : GhostdagData) : ℕ :=
  d.mergesetBlues.length + d.mergesetReds.length

/-- The mergeset without the selected parent. -/
def unorderedMergesetWithoutSelectedParent (d : GhostdagData) : List Hash :=
  d.mergesetBlues.tail ++ d.mergesetReds

/-- The mergeset with the selected parent. -/
def unorderedMergeset (d : GhostdagData) : List Hash :=
  d.mergesetBlues ++ d.mergesetReds

/-- The mergeset without the selected parent, highest block first. -/
def descendingMergesetWithoutSelectedParent (d : GhostdagData) (M : GhostdagManager) :
    Option (List Window.SortableBlock) := do
  let blues ← d.mergesetBlues.tail.reverse.mapM M.sortableBlock
  let reds ← d.mergesetReds.reverse.mapM M.sortableBlock
  Window.mergeJoin blues reds

/-- The mergeset without the selected parent, lowest block first: the order is turned around. -/
def ascendingMergesetWithoutSelectedParent (d : GhostdagData) (M : GhostdagManager) :
    Option (List Window.SortableBlock) := do
  let blues ← d.mergesetBlues.tail.mapM M.sortableBlock
  let reds ← d.mergesetReds.mapM M.sortableBlock
  Window.mergeJoin (α := Window.SortableBlockᵒᵈ) blues reds

/-- The mergeset in consensus order: the selected parent, then the others in ascending order. -/
def consensusOrderedMergeset (d : GhostdagData) (M : GhostdagManager) : Option (List Hash) := do
  let blocks ← d.ascendingMergesetWithoutSelectedParent M
  return d.selectedParent :: blocks.map Window.SortableBlock.hash

end Ghostdag.GhostdagData

namespace Window

/-- A window: the block of least blue work is on top. -/
abbrev BlockWindowHeap := MinHeap SortableBlock

/-- The kinds of windows. -/
inductive WindowType where
  | difficultyWindow
  | medianTimeWindow
  | varyingWindow (size : ℕ)

/-- The error of a window that cannot be built. -/
inductive RuleError where
  | insufficientDaaWindowSize (size : ℕ)
  deriving DecidableEq

/-! ### Bounded heaps -/

/-- A window of bounded size. -/
structure BoundedSizeBlockHeap where
  binaryHeap : BlockWindowHeap
  sizeBound : ℕ

namespace BoundedSizeBlockHeap

/-- The empty window. -/
def new (sizeBound : ℕ) : BoundedSizeBlockHeap :=
  ⟨.empty, sizeBound⟩

/-- Whether the window is full. -/
def reachedSizeBound (h : BoundedSizeBlockHeap) : Bool :=
  h.binaryHeap.len == h.sizeBound

/-- Whether a block would enter the window. -/
def canPush (h : BoundedSizeBlockHeap) (b : SortableBlock) : Option Bool :=
  if h.reachedSizeBound then h.binaryHeap.peek.map fun max => decide (max ≤ b)
  else some true

/-- Adds a block. A full window drops its least block first, and refuses a block below it. -/
def tryPush (h : BoundedSizeBlockHeap) (b : SortableBlock) : Bool × BoundedSizeBlockHeap :=
  if h.reachedSizeBound then
    if h.binaryHeap.peek.any fun max => decide (b < max) then (false, h)
    else (true, { h with binaryHeap := h.binaryHeap.pop.push b })
  else (true, { h with binaryHeap := h.binaryHeap.push b })

/-- Adds all blocks of another window, then drops the least blocks down to the bound. -/
def mergeAncestorHeap (h : BoundedSizeBlockHeap) (ancestor : BlockWindowHeap) :
    BoundedSizeBlockHeap :=
  let merged := h.binaryHeap.append ancestor
  { h with binaryHeap := MinHeap.pop^[merged.len - h.sizeBound] merged }

end BoundedSizeBlockHeap

/-! ### Sampling -/

/-- What the iterator over a mergeset yields. -/
inductive SampledBlock where
  | sampled (block : SortableBlock)
  | nonDaa (hash : Hash)

/-- The most blocks with one selected parent that count in a mergeset. -/
def parallelBlockCapN : ℕ := 20

/-- The manager of windows, over the stores of a block DAG. -/
structure SampledWindowManager where
  stores : GhostdagManager
  blockWindowCacheForDifficulty : OrdMap Hash BlockWindowHeap := OrdMap.empty
  blockWindowCacheForPastMedianTime : OrdMap Hash BlockWindowHeap := OrdMap.empty
  difficultyWindowSize : ℕ
  difficultySampleRate : ℕ
  pastMedianTimeWindowSize : ℕ
  pastMedianTimeSampleRate : ℕ
  h5Activation : ℕ

namespace SampledWindowManager

variable (W : SampledWindowManager)

/-- The DAA score in the header of a block. -/
def daaScore (h : Hash) : Option ℕ :=
  (W.stores.headersStore.get? h).map (·.daaScore)

/-- The blue score of a block. -/
def blueScore (h : Hash) : Option ℕ :=
  (W.stores.ghostdagStore.get? h).map (·.blueScore)

/-- The size of a window. -/
def windowSize : WindowType → ℕ
  | .difficultyWindow => W.difficultyWindowSize
  | .medianTimeWindow => W.pastMedianTimeWindowSize
  | .varyingWindow size => size

/-- The sample rate of a window. -/
def sampleRate : WindowType → ℕ
  | .difficultyWindow => W.difficultySampleRate
  | .medianTimeWindow => W.pastMedianTimeSampleRate
  | .varyingWindow _ => 1

/-- The number of blocks a difficulty window spans. -/
def difficultyFullWindowSize : ℕ :=
  W.difficultyWindowSize * W.difficultySampleRate

/-- The lowest blue score of a block that still counts. -/
def lowestDaaBlueScore (d : GhostdagData) : ℕ :=
  max d.blueScore W.difficultyFullWindowSize - W.difficultyFullWindowSize

/-- Gives the next DAA index to every block that is not too old. -/
def assignIndexes (selectedParentDaaScore threshold : ℕ) :
    ℕ → List SortableBlock → Option (List (SortableBlock × Option ℕ))
  | _, [] => some []
  | index, b :: bs => do
    let blueScore ← W.blueScore b.hash
    if blueScore < threshold then
      return (b, none) :: (← assignIndexes selectedParentDaaScore threshold index bs)
    else
      return (b, some (selectedParentDaaScore + (index + 1))) ::
        (← assignIndexes selectedParentDaaScore threshold (index + 1) bs)

/-- The mergeset in descending order, with the DAA index of every block that has one. -/
def indexedMergeset (d : GhostdagData) (selectedParentBlueWork : ℕ) :
    Option (List (SortableBlock × Option ℕ)) := do
  let selectedParentDaaScore ← W.daaScore d.selectedParent
  let blocks ← d.descendingMergesetWithoutSelectedParent W.stores
  W.assignIndexes selectedParentDaaScore (W.lowestDaaBlueScore d) 0
    (toLex (selectedParentBlueWork, d.selectedParent) :: blocks)

/-- What an indexed block yields: it is too old, or sampled, or passed over. -/
def sample (sampleRate : ℕ) : SortableBlock × Option ℕ → Option SampledBlock
  | (b, none) => some (.nonDaa b.hash)
  | (b, some index) => if sampleRate ∣ index then some (.sampled b) else none

/-- The iterator over the samples of a mergeset. -/
def sampledMergesetIterator (sampleRate : ℕ) (d : GhostdagData) (selectedParentBlueWork : ℕ) :
    Option (List SampledBlock) :=
  (W.indexedMergeset d selectedParentBlueWork).map (·.filterMap (sample sampleRate))

/-- Pushes the samples of a whole mergeset, and collects the blocks that are too old. -/
def pushMergeset (samples : List SampledBlock) (heap : BoundedSizeBlockHeap) :
    BoundedSizeBlockHeap × Finset Hash :=
  samples.foldl
    (fun acc s => match s with
      | .sampled b => ((acc.1.tryPush b).2, acc.2)
      | .nonDaa hash => (acc.1, insert hash acc.2))
    (heap, ∅)

/-- Pushes samples up to the first one that does not enter. -/
def pushMergesetUntilRefused : List SampledBlock → BoundedSizeBlockHeap → BoundedSizeBlockHeap
  | [], heap => heap
  | .nonDaa _ :: samples, heap => pushMergesetUntilRefused samples heap
  | .sampled b :: samples, heap =>
    if (heap.tryPush b).1 then pushMergesetUntilRefused samples (heap.tryPush b).2 else heap

/-! ### Building a window -/

/-- The cached window of a block. -/
def cached : WindowType → Hash → Option BlockWindowHeap
  | .difficultyWindow, h => W.blockWindowCacheForDifficulty.get? h
  | .medianTimeWindow, h => W.blockWindowCacheForPastMedianTime.get? h
  | .varyingWindow _, _ => none

/-- Walks down the selected chain until nothing further can enter the window. -/
def walkChain (windowType : WindowType) :
    ℕ → BoundedSizeBlockHeap → GhostdagData → Option (Except RuleError BoundedSizeBlockHeap)
  | 0, _, _ => none
  | rounds + 1, heap, current =>
    if current.selectedParent = origin then
      if heap.reachedSizeBound then some (.ok heap)
      else some (.error (.insufficientDaaWindowSize heap.binaryHeap.len))
    else if current.selectedParent = W.stores.genesisHash then some (.ok heap)
    else do
      let parent ← W.stores.ghostdagStore.get? current.selectedParent
      if ← heap.canPush (toLex (parent.blueWork, current.selectedParent)) then
        let samples ← W.sampledMergesetIterator (W.sampleRate windowType) current parent.blueWork
        let heap := pushMergesetUntilRefused samples heap
        match W.cached windowType current.selectedParent with
        | some window => return .ok (heap.mergeAncestorHeap window)
        | none => walkChain windowType rounds heap parent
      else return .ok heap

/-- The window of a block, and the blocks of its mergeset that are too old to count. -/
def buildBlockWindow (d : GhostdagData) (windowType : WindowType) :
    Option (Except RuleError (BlockWindowHeap × Finset Hash)) :=
  if W.windowSize windowType = 0 then some (.ok (.empty, ∅))
  else if d.selectedParent = W.stores.genesisHash then
    -- Genesis does not enter a window.
    some (.ok (.empty, {W.stores.genesisHash}))
  else if d.selectedParent = origin then some (.error (.insufficientDaaWindowSize 0))
  else do
    let parent ← W.stores.ghostdagStore.get? d.selectedParent
    let samples ← W.sampledMergesetIterator (W.sampleRate windowType) d parent.blueWork
    match W.cached windowType d.selectedParent with
    | some window =>
      let (heap, nonDaa) := pushMergeset samples ⟨window, W.windowSize windowType⟩
      return .ok (heap.binaryHeap, nonDaa)
    | none =>
      let (heap, nonDaa) := pushMergeset samples (.new (W.windowSize windowType))
      let walked ← W.walkChain windowType (W.stores.relationsStore.size + 1) heap parent
      return walked.map fun heap => (heap.binaryHeap, nonDaa)

/-! ### DAA scores -/

/-- The window of a block with its DAA score and the blocks of its mergeset that do not count. -/
structure DaaWindow where
  window : BlockWindowHeap
  daaScore : ℕ
  mergesetNonDaa : Finset Hash

/-- Adds a block that counts to the group of its selected parent. -/
def groupByParent (nonDaa : Finset Hash) (byParent : OrdMap Hash (List Hash)) (hash : Hash) :
    Option (OrdMap Hash (List Hash)) :=
  if hash ∈ nonDaa then some byParent
  else do
    let data ← W.stores.ghostdagStore.get? hash
    return byParent.insert data.selectedParent
      ((byParent.get? data.selectedParent).getD [] ++ [hash])

/-- The blocks of a group beyond the cap. -/
def surplus (group : List Hash) : List Hash :=
  if parallelBlockCapN < group.length then
    (group.insertionSort (· ≤ ·)).drop parallelBlockCapN
  else []

/-- Excludes the surplus of every group of mergeset blocks with one selected parent. -/
def applyParallelBlockCap (d : GhostdagData) (nonDaa : Finset Hash) : Option (Finset Hash) := do
  let selectedParentDaaScore ← W.daaScore d.selectedParent
  if W.h5Activation ≤ selectedParentDaaScore then
    let byParent ← d.unorderedMergesetWithoutSelectedParent.foldlM (W.groupByParent nonDaa)
      OrdMap.empty
    return byParent.entries.foldl (fun s group => s ∪ (surplus group.2).toFinset) nonDaa
  else return nonDaa

/-- The DAA score: that of the selected parent and the mergeset blocks that count. -/
def calcDaaScore (d : GhostdagData) (nonDaa : Finset Hash) : Option ℕ := do
  let selectedParentDaaScore ← W.daaScore d.selectedParent
  if nonDaa.card ≤ d.mergesetSize then
    return selectedParentDaaScore + (d.mergesetSize - nonDaa.card)
  else none

/-- The difficulty window of a block with its DAA score. -/
def blockDaaWindow (d : GhostdagData) : Option (Except RuleError DaaWindow) := do
  match ← W.buildBlockWindow d .difficultyWindow with
  | .error e => return .error e
  | .ok (window, nonDaa) =>
    let nonDaa ← W.applyParallelBlockCap d nonDaa
    let daaScore ← W.calcDaaScore d nonDaa
    return .ok ⟨window, daaScore, nonDaa⟩

end SampledWindowManager

end Window

end KeryxNode
