import KeryxNode.PomProof

/-!
# The v4 Walk

The possession walk of `consensus/core/src/pom_v4.rs`: a 32 by 32 matrix of signed bytes is
multiplied, step by step, with tiles of the weights. The offset of a tile follows from the seed
and the first chunk of the tile before it, so the verifier re-derives every offset from the tiles
the proof supplies, checks that each is an aligned subtree of the tier's tree, and re-walks.

The vector instructions of the source compute the dot product written here; the two buffers of
the verifier are one state. `v4_tile_path` reads a level at an index: outside the level it stops
the program, so paths and provers have no result there.
-/

namespace KeryxNode

namespace Pom

open ByteCodec Body List

/-! ### Shapes -/

/-- The walk state is a matrix of this many rows and columns. -/
def pomV4D : ℕ := 32

/-- Steps of a walk. -/
def pomV4K : ℕ := 256

/-- Bytes of a chunk, the leaves of the tier's tree. -/
def pomV4ChunkBytes : ℕ := 32

/-- Bytes of a tile. -/
def pomV4TileBytes : ℕ := pomV4D * pomV4D

/-- Chunks of a tile. -/
def pomV4TileChunks : ℕ := pomV4TileBytes / pomV4ChunkBytes

/-- Bytes of the snippet the next offset is drawn from: the first chunk of a tile. -/
def pomV4SnippetBytes : ℕ := 32

/-- Height of the subtree of a tile. -/
def tileSubtreeDepth : ℕ := 5

def pomV4S0RowSalt : UInt64 := 0x03421325594C3C51

def pomV4OffsetFirstSalt : UInt64 := 0x6D1CCF96AC4D76F9

def pomV4OffsetStepSalt : UInt64 := 0x89050E78D34609EF

/-- Whole tiles of a blob: the offsets a walk can address. -/
def v4NTiles (nChunks : ℕ) : ℕ :=
  nChunks / pomV4TileChunks

/-- Width of the tree at the level of the tiles, a partial last tile included. -/
def v4TileLevelLen (nChunks : ℕ) : ℕ :=
  (nChunks + pomV4TileChunks - 1) / pomV4TileChunks

/-- Length of the path from a tile to the root. -/
def v4TilePathLen (levelLen : ℕ) : ℕ :=
  Merkle.pathLen levelLen

/-- The chunks of a byte string. -/
def chunksOf (bytes : List UInt8) : List (List UInt8) :=
  (range ((bytes.length + pomV4ChunkBytes - 1) / pomV4ChunkBytes)).map fun i =>
    slice bytes (i * pomV4ChunkBytes) (i * pomV4ChunkBytes + pomV4ChunkBytes)

/-- The tile of a blob at an offset. -/
def blobTile (blob : List UInt8) (off : ℕ) : List UInt8 :=
  slice blob (off * pomV4TileBytes) ((off + 1) * pomV4TileBytes)

/-- The 32 rows of a matrix, or chunks of a tile. -/
def rows (bytes : List UInt8) : List (List UInt8) :=
  (range pomV4D).map fun r => slice bytes (r * pomV4D) (r * pomV4D + pomV4D)

/-! ### Walk primitives -/

/-- Fold of a snippet: eight little-endian words. -/
def snippetFold (snippet : List UInt8) : UInt64 :=
  (range 8).foldl (fun sf w =>
    mix64 (sf ^^^ UInt64.ofNat (leValue (slice snippet (w * 4) (w * 4 + 4))))) 0

/-- The byte a dot product is reduced to. -/
def rho8 (acc : Int32) (tweak : UInt32) : UInt8 :=
  let z := acc.toUInt32 ^^^ tweak
  let z := z * 0x9E3779B9
  let z := z ^^^ (z >>> 16)
  let z := z * 0x85EBCA6B
  let z := z ^^^ (z >>> 13)
  (z &&& 0xff).toUInt8

/-- The tweak of a step, row and column. -/
def rhoTweak (step row col : UInt32) : UInt32 :=
  step * 0x9E3779B9 + row * 0xC2B2AE35 + col * 0x85EBCA6B

/-- Signed dot product of a row and a column. -/
def v4DotI8 (row col : List UInt8) : Int32 :=
  (row.zip col).foldl (fun acc p => acc + p.1.toInt8.toInt32 * p.2.toInt8.toInt32) 0

/-- `n` squeezes of a row's keystream, four bytes each. -/
def keystream : ℕ → UInt64 → List UInt8
  | 0, _ => []
  | n + 1, h => leBytes 4 (mix64 h).toNat ++ keystream n (mix64 h)

/-- The initial state of a seed. -/
def v4InitialState (seed : UInt64) : List UInt8 :=
  (range pomV4D).flatMap fun r =>
    keystream (pomV4D / 4) (mix64 (seed ^^^ (pomV4S0RowSalt + UInt64.ofNat r)))

/-- One transition: the product of state and tile, reduced entry by entry. -/
def v4Transition (state tile : List UInt8) (step : ℕ) : List UInt8 :=
  (range pomV4D).flatMap fun x => (range pomV4D).map fun j =>
    rho8 (v4DotI8 (slice state (x * pomV4D) ((x + 1) * pomV4D))
        (slice tile (j * pomV4D) ((j + 1) * pomV4D)))
      (rhoTweak (UInt32.ofNat step) (UInt32.ofNat x) (UInt32.ofNat j))

/-- The offset of the first tile. -/
def v4FirstOffset (seed : UInt64) (nTiles : ℕ) : ℕ :=
  (mix64 (seed ^^^ pomV4OffsetFirstSalt)).toNat % nTiles

/-- The offset after a step, from the snippet of its tile. -/
def v4NextOffset (seed : UInt64) (step : ℕ) (snippet : List UInt8) (nTiles : ℕ) : ℕ :=
  (mix64 (seed ^^^ UInt64.ofNat (step + 1) * pomV4OffsetStepSalt ^^^ snippetFold snippet)).toNat
    % nTiles

/-- The offset read after `t` steps of a walk over these tiles. -/
def v4OffsetAt (seed : UInt64) (tiles : List (List UInt8)) (nTiles : ℕ) : ℕ → ℕ
  | 0 => v4FirstOffset seed nTiles
  | step + 1 => v4NextOffset seed (step + 1) ((tiles.getD step []).take pomV4SnippetBytes) nTiles

/-- The offsets of a walk over these tiles. -/
def v4OffsetChain (seed : UInt64) (tiles : List (List UInt8)) (nTiles : ℕ) : List ℕ :=
  (range pomV4K).map (v4OffsetAt seed tiles nTiles)

/-- The state after these tiles. -/
def v4Rewalk : ℕ → List UInt8 → List (List UInt8) → List UInt8
  | _, state, [] => state
  | step, state, tile :: tiles => v4Rewalk (step + 1) (v4Transition state tile step) tiles

/-- The low word of a root. -/
def fold64 (root : Bytes32) : UInt64 :=
  UInt64.ofNat (leValue (root.bytes.take 8))

section Hash

variable (blake : List UInt8 → Bytes32)

/-- Merkle root over the rows of a state. -/
def v4StateRoot (state : List UInt8) : Bytes32 :=
  (Merkle.root? (hashPair blake) ((rows state).map blake)).getD default

/-- Root of the subtree of a tile, folded from its chunks. -/
def v4TileSubtreeRoot (tile : List UInt8) : Bytes32 :=
  ((Merkle.foldLevel (hashPair blake))^[tileSubtreeDepth] ((rows tile).map blake)).headD default

/-! ### The verifier -/

/-- Checks every tile against the root. -/
def verifyTileMerkle (proof : PomProofV4) (offs : List ℕ) (rT : Bytes32) : Bool :=
  (proof.tiles.zip (offs.zip proof.merkle)).all fun t =>
    verifyMerkle blake (v4TileSubtreeRoot blake t.1) t.2.1 t.2.2 rT

/-- The v4 verifier: the final state of an accepted proof. -/
def verifyPomProofV4 (seed : UInt64) (proof : PomProofV4) (rT : Bytes32) (nChunks : UInt64) :
    Except PomV4VerifyError UInt64 :=
  let nTiles := v4NTiles nChunks.toNat
  if proof.tiles.length ≠ pomV4K ∨ proof.merkle.length ≠ pomV4K then .error .wrongShape
  else if nTiles = 0 then .error .blobTooSmall
  else if proof.tiles.any fun tile => decide (tile.length ≠ pomV4TileBytes) then
    .error .wrongTileShape
  else if !verifyTileMerkle blake proof (v4OffsetChain seed proof.tiles nTiles) rT then
    .error .badTilePath
  else .ok (fold64 (v4StateRoot blake (v4Rewalk 1 (v4InitialState seed) proof.tiles)))

/-- Validation of a container. -/
def verifyPomProofV4Container (finalHash : UInt64 → Bytes32) (seed : UInt64) (proof : PomProof)
    (nChunks : UInt64) (rT target : Bytes32) : Except PomV4VerifyError Unit :=
  match proof.v4 with
  | none => .error .missingV4
  | some v4 =>
    if !proof.legacyEmpty || proof.stepsV2.isSome || proof.v3.isSome then
      .error .nonCanonicalLegacyFields
    else if proof.tier ≠ v4.tier then .error .tierMismatch
    else
      match verifyPomProofV4 blake seed v4 rT nChunks with
      | .error e => .error e
      | .ok derived =>
        if proof.finalState ≠ derived then .error .finalStateMismatch
        else if finalHash proof.finalState ≠ proof.powValue then .error .powValueMismatch
        else if !leLeq (finalHash proof.finalState) target then .error .targetNotMet
        else .ok ()

/-! ### The reference prover -/

/-- The trace of a walk. -/
structure V4Walk where
  states : List (List UInt8)
  offsets : List ℕ := []
  snippets : List (List UInt8) := []

/-- One round of the walk over a blob: the trace and the offset of the tile to read. -/
def v4WalkStep (seed : UInt64) (blob : List UInt8) (nTiles : ℕ) (s : V4Walk × ℕ) (step : ℕ) :
    V4Walk × ℕ :=
  let tile := blobTile blob s.2
  let snippet := tile.take pomV4SnippetBytes
  ({ states := s.1.states ++ [v4Transition (s.1.states.getLastD []) tile step]
     offsets := s.1.offsets ++ [s.2]
     snippets := s.1.snippets ++ [snippet] },
    if step < pomV4K then v4NextOffset seed step snippet nTiles else s.2)

/-- The walk over a blob. -/
def v4Walk (seed : UInt64) (blob : List UInt8) : Except PomV4VerifyError V4Walk :=
  let nTiles := v4NTiles (blob.length / pomV4ChunkBytes)
  if nTiles = 0 then .error .blobTooSmall
  else
    .ok ((range' 1 pomV4K).foldl (v4WalkStep seed blob nTiles)
      ({ states := [v4InitialState seed] }, v4FirstOffset seed nTiles)).1

/-- The path of a tile, from the leaf hashes of the blob. -/
def v4TilePath (leafHashes : List Bytes32) (tileOffset : ℕ) : Option (List Bytes32) :=
  Merkle.path? (hashPair blake)
    ((Merkle.foldLevel (hashPair blake))^[tileSubtreeDepth] leafHashes) tileOffset

/-- The reference prover. -/
def v4Prove (seed : UInt64) (tier : UInt8) (blob : List UInt8) (leafHashes : List Bytes32) :
    Option (Except PomV4VerifyError PomProofV4) :=
  match v4Walk seed blob with
  | .error e => some (.error e)
  | .ok walk =>
    (walk.offsets.mapM (v4TilePath blake leafHashes)).map fun merkle =>
      .ok { tier, tiles := walk.offsets.map (blobTile blob), merkle }

end Hash

end Pom

end KeryxNode
