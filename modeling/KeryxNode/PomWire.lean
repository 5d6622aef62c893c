import KeryxNode.PomV4

/-!
# The Compact Form of a v4 Proof

The paths of all tiles climb to one root, so their upper parts are shared. The compact form of
`consensus/core/src/pom_v4_wire.rs` carries the tiles and only those siblings that cannot be
folded from other tiles. Encoder and decoder walk the tree level by level over the nodes they
know: the encoder emits a missing sibling, the decoder takes the next supplied one.

The closures of the source that collect nodes, or move a cursor and push path entries, are
visitors with an explicit state. A level is an ordered map from node index to digest.
-/

namespace KeryxNode

namespace Pom

open ByteCodec

/-- Errors of the compact form. -/
inductive PomWireError where
  | notCanonicalV4
  | wrongShape
  | wrongPathLen
  | blobTooSmall
  | inconsistentPaths
  | malformed
  | unknownTier (tier : UInt8)
  deriving DecidableEq

/-- The known nodes of a level. -/
abbrev Level := OrdMap ℕ Bytes32

/-- Bytes before the tiles: tier, value, final state and node count. -/
def headerBytes : ℕ := 1 + 32 + 8 + 4

/-- Every field the compact form does not carry is empty. -/
def PomProof.isCanonicalV4 (proof : PomProof) : Bool :=
  proof.v4.isSome && proof.legacyEmpty && proof.stepsV2.isNone && proof.v3.isNone

/-- The tiles and paths have the shape of a walk. -/
def shapeCheck (v4 : PomProofV4) : Except PomWireError Unit :=
  if v4.tiles.length ≠ pomV4K ∨ v4.merkle.length ≠ pomV4K then .error .wrongShape
  else if v4.tiles.any fun t => decide (t.length ≠ pomV4TileBytes) then .error .wrongShape
  else .ok ()

/-! ### Levels -/

/-- The sibling that has to be supplied for a node: none if it is outside the level or known. -/
def needsSibling (idx levelLen : ℕ) (known : Level) : Option ℕ :=
  if idx ^^^ 1 < levelLen ∧ known.contains (idx ^^^ 1) = false then some (idx ^^^ 1) else none

section Hash

variable (blake : List UInt8 → Bytes32)

/-- Folds one parent, unless another child already did. -/
def foldParent (levelLen : ℕ) (full next : Level) (idx : ℕ) : Except PomWireError Level :=
  let p := idx / 2
  if next.contains p then .ok next
  else
    match full.get? (p * 2) with
    | none => .error .malformed
    | some l =>
      if p * 2 + 1 < levelLen then
        match full.get? (p * 2 + 1) with
        | none => .error .malformed
        | some r => .ok (next.insert p (hashPair blake (l, r)))
      else .ok (next.insert p (hashPair blake (l, l)))

/-- One bottom-up pass over `plen` levels: the visitor completes a level, whose parents are then
folded. -/
def walkLevels {σ : Type} (visit : ℕ → ℕ → Level → σ → Except PomWireError (Level × σ)) :
    ℕ → ℕ → ℕ → Level → σ → Except PomWireError σ
  | 0, _, _, _, s => .ok s
  | plen + 1, level, levelLen, cur, s => do
    let (full, s') ← visit level levelLen cur s
    let next ← cur.keys.foldlM (foldParent blake levelLen full) .empty
    walkLevels visit plen (level + 1) ((levelLen + 1) / 2) next s'

/-- The subtree roots of the tiles by offset; the first tile of an offset stands. -/
def tileLevel (offsets : List ℕ) (tiles : List (List UInt8)) : Level :=
  (offsets.zip tiles).foldl (fun level t =>
    if level.contains t.1 then level else level.insert t.1 (v4TileSubtreeRoot blake t.2)) .empty

/-! ### The encoder -/

/-- What a tile claims the sibling of its ancestor is; tiles that meet have to agree. -/
def claimSibling (level : ℕ) (claimed : Level) (tile : ℕ × List Bytes32) :
    Except PomWireError Level :=
  let anc := tile.1 / 2 ^ level
  let v := tile.2.getD level default
  if (claimed.get? anc).any fun prev => decide (prev ≠ v) then .error .inconsistentPaths
  else .ok (claimed.insert anc v)

/-- Emits the claimed sibling of one node, if it is missing. -/
def emitSibling (levelLen : ℕ) (known claimed : Level) (s : Level × List Bytes32) (idx : ℕ) :
    Except PomWireError (Level × List Bytes32) :=
  match needsSibling idx levelLen known with
  | none => .ok s
  | some sib =>
    match claimed.get? idx with
    | none => .error .malformed
    | some v => .ok (s.1.insert sib v, s.2 ++ [v])

/-- The visitor of the encoder: its state is the nodes emitted so far. -/
def encodeVisit (offsets : List ℕ) (merkle : List (List Bytes32)) (level levelLen : ℕ)
    (known : Level) (nodes : List Bytes32) : Except PomWireError (Level × List Bytes32) := do
  let claimed ← (offsets.zip merkle).foldlM (claimSibling level) .empty
  known.keys.foldlM (emitSibling levelLen known claimed) (known, nodes)

/-- The bytes of the compact form. -/
def wireBytes (tier : UInt8) (powValue : Bytes32) (finalState : UInt64)
    (tiles : List (List UInt8)) (nodes : List Bytes32) : List UInt8 :=
  tier :: powValue.bytes ++ leBytes 8 finalState.toNat ++ leBytes 4 nodes.length ++
    tiles.flatten ++ (nodes.map Bytes32.bytes).flatten

/-- Encodes a canonical v4 proof. -/
def encodeV4Deduped (proof : PomProof) (seed nChunks : UInt64) :
    Except PomWireError (List UInt8) :=
  if !proof.isCanonicalV4 then .error .notCanonicalV4
  else
    match proof.v4 with
    | none => .error .notCanonicalV4
    | some v4 => do
      shapeCheck v4
      let nTiles := v4NTiles nChunks.toNat
      if nTiles = 0 then .error .blobTooSmall
      else
        let level0Len := v4TileLevelLen nChunks.toNat
        let plen := v4TilePathLen level0Len
        if v4.merkle.any fun m => decide (m.length ≠ plen) then .error .wrongPathLen
        else
          let offsets := v4OffsetChain seed v4.tiles nTiles
          let nodes ← walkLevels blake (encodeVisit offsets v4.merkle) plen 0 level0Len
            (tileLevel blake offsets v4.tiles) []
          .ok (wireBytes v4.tier proof.powValue proof.finalState v4.tiles nodes)

/-! ### The decoder -/

/-- The 32 bytes of a slice. -/
def bytes32OfSlice (bytes : List UInt8) : Bytes32 :=
  if h : bytes.length = 32 then ⟨bytes, h⟩ else default

/-- Takes the next supplied node for the sibling of one node, if it is missing. -/
def takeSibling (levelLen : ℕ) (known : Level) (supplied : List Bytes32) (s : Level × ℕ)
    (idx : ℕ) : Except PomWireError (Level × ℕ) :=
  match needsSibling idx levelLen known with
  | none => .ok s
  | some sib =>
    match supplied[s.2]? with
    | none => .error .malformed
    | some v => .ok (s.1.insert sib v, s.2 + 1)

/-- The path entry of a tile at a level: the sibling of its ancestor, or the ancestor itself at an
odd end. -/
def pathEntry (level levelLen : ℕ) (full : Level) (off : ℕ) : Except PomWireError Bytes32 :=
  let anc := off / 2 ^ level
  let key := if anc ^^^ 1 < levelLen then anc ^^^ 1 else anc
  match full.get? key with
  | none => .error .malformed
  | some v => .ok v

/-- The visitor of the decoder: its state is the cursor and the paths so far. -/
def decodeVisit (offsets : List ℕ) (supplied : List Bytes32) (level levelLen : ℕ) (known : Level)
    (s : ℕ × List (List Bytes32)) : Except PomWireError (Level × ℕ × List (List Bytes32)) := do
  let (full, cursor) ← known.keys.foldlM (takeSibling levelLen known supplied) (known, s.1)
  let entries ← offsets.mapM (pathEntry level levelLen full)
  .ok (full, cursor, List.zipWith (fun path v => path ++ [v]) s.2 entries)

/-- Decodes the compact form. -/
def decodeV4Deduped (bytes : List UInt8) (seed nChunks : UInt64) :
    Except PomWireError PomProof :=
  if bytes.length < headerBytes then .error .malformed
  else
    let tier := bytes.headD 0
    let powValue := bytes32OfSlice (slice bytes 1 33)
    let finalState := UInt64.ofNat (leValue (slice bytes 33 41))
    let nodeCount := leValue (slice bytes 41 45)
    let tilesBytes := pomV4K * pomV4TileBytes
    if bytes.length ≠ nodeCount * 32 + headerBytes + tilesBytes then .error .malformed
    else
      let nTiles := v4NTiles nChunks.toNat
      if nTiles = 0 then .error .blobTooSmall
      else
        let level0Len := v4TileLevelLen nChunks.toNat
        let plen := v4TilePathLen level0Len
        let tiles := (List.range pomV4K).map fun i =>
          slice bytes (headerBytes + i * pomV4TileBytes) (headerBytes + (i + 1) * pomV4TileBytes)
        let nodeBase := headerBytes + tilesBytes
        let supplied := (List.range nodeCount).map fun i =>
          bytes32OfSlice (slice bytes (nodeBase + i * 32) (nodeBase + (i + 1) * 32))
        let offsets := v4OffsetChain seed tiles nTiles
        do
          let (cursor, paths) ← walkLevels blake (decodeVisit offsets supplied) plen 0 level0Len
            (tileLevel blake offsets tiles) (0, List.replicate pomV4K [])
          if cursor ≠ supplied.length then .error .malformed
          else .ok { tier, powValue, finalState, v4 := some { tier, tiles, merkle := paths } }

end Hash

end Pom

end KeryxNode
