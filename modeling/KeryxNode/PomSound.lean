import KeryxNode.ErrorChain
import KeryxNode.PomV4

/-!
# Soundness and Completeness of the v4 Walk

A blob is a list of 32-byte chunks; its tier root is the Merkle root of their digests. This
module shows what an accepted proof says about the blob behind the root, and that the proofs of
the reference prover are accepted. Soundness assumes that the digest does not collide on the
strings hashed for the root and for the proof: those strings are listed, since no function into
32 bytes is injective on all strings.

## Main results

* `pomV4_sound`: an accepted v4 proof has the tiles of the walk, and its final state.
* `pomV4_complete`: the proof of the reference prover is accepted.
-/

namespace KeryxNode

open List Merkle

namespace Pom

open ByteCodec Body

variable (bytes : List UInt8) (seed : UInt64) {i : ℕ}

/-! ### Slices -/

theorem getElem?_slice (start stop i : ℕ) :
    (slice bytes start stop)[i]? = if i < stop - start then bytes[start + i]? else none := by
  rw [slice, getElem?_take, getElem?_drop]

theorem length_slice {bytes : List UInt8} {start stop : ℕ} (h : stop ≤ bytes.length) :
    (slice bytes start stop).length = stop - start := by
  rw [slice, length_take, length_drop]
  omega

/-- A slice of a slice. -/
theorem slice_slice {start stop a b : ℕ} (h : b ≤ stop - start) :
    slice (slice bytes start stop) a b = slice bytes (start + a) (start + b) := by
  refine ext_getElem? fun i => ?_
  rw [getElem?_slice, getElem?_slice, getElem?_slice, Nat.add_sub_add_left, Nat.add_assoc]
  split
  · rw [if_pos (by omega)]
  · rfl

theorem length_rows : (rows bytes).length = 32 := by
  rw [rows, length_map, length_range, pomV4D]

theorem getElem?_rows (hi : i < 32) :
    (rows bytes)[i]? = some (slice bytes (i * 32) (i * 32 + 32)) := by
  rw [rows, getElem?_map, getElem?_range (by exact hi)]
  rfl

/-- Every row of a tile has 32 bytes. -/
theorem size_of_mem_rows {tile c : List UInt8} (h : tile.length = pomV4TileBytes)
    (hc : c ∈ rows tile) : c.length = 32 := by
  obtain ⟨i, hi, rfl⟩ := mem_map.mp hc
  have hi' : i < 32 := mem_range.mp hi
  have hlen : tile.length = 1024 := h
  rw [length_slice (by rw [pomV4D]; omega), Nat.add_sub_cancel_left, pomV4D]

/-- A tile is its rows. -/
theorem eq_of_rows {tile tile' : List UInt8} (h : tile.length = pomV4TileBytes)
    (h' : tile'.length = pomV4TileBytes)
    (hrows : ∀ i < 32, slice tile (i * 32) (i * 32 + 32) = slice tile' (i * 32) (i * 32 + 32)) :
    tile = tile' := by
  have hflat : ∀ {t : List UInt8}, t.length = pomV4TileBytes →
      t = ((range 32).map fun i => slice t (0 + i * 32) (0 + (i + 1) * 32)).flatten := fun ht => by
    rw [flatten_slices]
    exact (slice_all ht).symm
  rw [hflat h, hflat h', map_congr_left fun i hi => ?_]
  simpa [Nat.succ_mul] using hrows i (mem_range.mp hi)

/-! ### Blobs -/

/-- A blob of whole chunks. -/
structure IsBlob (blob : List UInt8) (nChunks : UInt64) : Prop where
  length : blob.length = 32 * nChunks.toNat

namespace IsBlob

variable {blob : List UInt8} {nChunks : UInt64} (h : IsBlob blob nChunks)
include h

theorem length_chunks : (chunksOf blob).length = nChunks.toNat := by
  rw [chunksOf, length_map, length_range, h.length, pomV4ChunkBytes]
  omega

theorem getElem?_chunks (hi : i < nChunks.toNat) :
    (chunksOf blob)[i]? = some (slice blob (i * 32) (i * 32 + 32)) := by
  have hrange : i < (blob.length + pomV4ChunkBytes - 1) / pomV4ChunkBytes := by
    rw [h.length, pomV4ChunkBytes]
    omega
  rw [chunksOf, getElem?_map, getElem?_range hrange]
  rfl

theorem size_of_mem_chunks {c : List UInt8} (hc : c ∈ chunksOf blob) : c.length = 32 := by
  obtain ⟨i, hi⟩ := mem_iff_getElem?.mp hc
  have hlt : i < nChunks.toNat := h.length_chunks ▸ (List.getElem?_eq_some_iff.mp hi).1
  rw [h.getElem?_chunks hlt] at hi
  rw [← Option.some.inj hi, length_slice (by rw [h.length]; omega), Nat.add_sub_cancel_left]

variable {off : ℕ} (hoff : off < v4NTiles nChunks.toNat)
include hoff

omit h in
/-- An offset below the tile count is a whole tile. -/
theorem tile_le (_ : IsBlob blob nChunks) : 32 * off + 32 ≤ nChunks.toNat := by
  have : off < nChunks.toNat / 32 := hoff
  omega

theorem length_blobTile : (blobTile blob off).length = pomV4TileBytes := by
  have hle := h.tile_le hoff
  have hlen := h.length
  have htile : pomV4TileBytes = 1024 := rfl
  rw [blobTile, length_slice (by rw [htile]; omega), htile]
  omega

/-- A row of a tile is a chunk of the blob. -/
theorem row_blobTile (hi : i < 32) :
    (chunksOf blob)[32 * off + i]? = some (slice (blobTile blob off) (i * 32) (i * 32 + 32)) := by
  have hle := h.tile_le hoff
  have htile : pomV4TileBytes = 1024 := rfl
  rw [h.getElem?_chunks (by omega), blobTile, slice_slice _ (by rw [htile]; omega), htile]
  congr 2 <;> omega

end IsBlob

/-! ### Tiles -/

theorem pathLen_rows (tile : List UInt8) :
    pathLen (rows tile).length = tileSubtreeDepth := by
  rw [length_rows, tileSubtreeDepth]
  simp [pathLen]

/-- The subtree root of a tile is the Merkle root of its chunks. -/
theorem root?_rows (blake : List UInt8 → Bytes32) (tile : List UInt8) :
    root? (hashPair blake) ((rows tile).map blake)
      = some (v4TileSubtreeRoot blake tile) := by
  have hfirst : ((rows tile).map blake)[0]? = some (blake (slice tile 0 32)) := by
    rfl
  obtain ⟨-, r, -, -, hroot, -⟩ := path_climbs (hashPair blake) hfirst
  have hiter := iterate_foldLevel_pathLen hroot
  rw [length_map, pathLen_rows] at hiter
  rw [hroot, v4TileSubtreeRoot, hiter]
  rfl

/-- The strings hashed while a tile is checked. -/
def tileInputs (blake : List UInt8 → Bytes32) (tile : List UInt8) (off : ℕ)
    (path : List Bytes32) : List (List UInt8) :=
  treeInputs blake (rows tile) ++
    (climbPairs (hashPair blake) (v4TileSubtreeRoot blake tile) off path).map pairBytes

theorem CollisionFree.mono {blake : List UInt8 → Bytes32} {xs ys : List (List UInt8)}
    (h : CollisionFree blake ys) (hsub : xs ⊆ ys) : CollisionFree blake xs :=
  fun x hx y hy => h x (hsub hx) y (hsub hy)

theorem CollisionFree.append_mono {blake : List UInt8 → Bytes32} {l xs ys : List (List UInt8)}
    (h : CollisionFree blake (l ++ ys)) (hsub : xs ⊆ ys) : CollisionFree blake (l ++ xs) :=
  h.mono (append_subset.mpr ⟨subset_append_left _ _, Subset.trans hsub (subset_append_right _ _)⟩)

section Tiles

variable {blake : List UInt8 → Bytes32} {blob : List UInt8} {nChunks : UInt64} {rT : Bytes32}
  {tile : List UInt8} {off : ℕ} {path : List Bytes32}

/-- A tree with a whole tile is at least as high as the tile. -/
theorem IsBlob.tileSubtreeDepth_le (hblob : IsBlob blob nChunks)
    (htiles : v4NTiles nChunks.toNat ≠ 0) :
    tileSubtreeDepth ≤ pathLen ((chunksOf blob).map blake).length := by
  have hle := hblob.tile_le (Nat.pos_of_ne_zero htiles)
  rw [length_map, hblob.length_chunks, pathLen_eq_clog]
  exact Nat.clog_mono_right 2 (by omega)

variable (hblob : IsBlob blob nChunks)
  (hroot : root? (hashPair blake) ((chunksOf blob).map blake) = some rT)
  (htile : tile.length = pomV4TileBytes) (hoff : off < v4NTiles nChunks.toNat)
  (hclimb : climb (hashPair blake) (v4TileSubtreeRoot blake tile) off path = rT)
  (hfree : CollisionFree blake
    (treeInputs blake (chunksOf blob) ++ tileInputs blake tile off path))
include hblob hroot htile hoff hclimb hfree

/-- One chunk of an accepted tile: the path inside the tile and the path of the tile open it. -/
theorem tile_chunk_sound (hi : i < 32) :
    (chunksOf blob)[32 * off + i]? = some (slice tile (i * 32) (i * 32 + 32)) ∧
      ∃ inner, inner.length = tileSubtreeDepth ∧
        path? (hashPair blake) ((chunksOf blob).map blake) (32 * off + i)
          = some (inner ++ path) := by
  set chunk := slice tile (i * 32) (i * 32 + 32) with hchunk
  have hrow : (rows tile)[i]? = some chunk := getElem?_rows tile hi
  have hleaf : ((rows tile).map blake)[i]? = some (blake chunk) := by
    rw [getElem?_map, hrow]
    rfl
  obtain ⟨inner, r, -, hinner, hr, hinnerClimb, hinnerPairs⟩ :=
    path_climbs (hashPair blake) hleaf
  obtain rfl := Option.mem_unique (root?_rows blake tile) hr
  rw [length_map, pathLen_rows] at hinner
  -- The index of the chunk is the offset of the tile followed by the row.
  have hmod : (32 * off + i) % 2 ^ inner.length = i := by
    rw [hinner, tileSubtreeDepth]
    omega
  have hdiv : (32 * off + i) / 2 ^ inner.length = off := by
    rw [hinner, tileSubtreeDepth]
    omega
  obtain ⟨hsame, hsamePairs⟩ :=
    climb_mod (hashPair blake) (blake chunk) (32 * off + i) inner
  rw [hmod] at hsame hsamePairs
  have hall : climb (hashPair blake) (blake chunk) (32 * off + i) (inner ++ path) = rT := by
    rw [(climb_append ..).1, ← hsame, hinnerClimb, hdiv, hclimb]
  have hpairs : climbPairs (hashPair blake) (blake chunk) (32 * off + i) (inner ++ path)
      = climbPairs (hashPair blake) (blake chunk) i inner ++
        climbPairs (hashPair blake) (v4TileSubtreeRoot blake tile) off path := by
    rw [(climb_append ..).2, ← hsame, hinnerClimb, hdiv, ← hsamePairs]
  have hsub : openingInputs blake chunk (32 * off + i) (inner ++ path)
      ⊆ tileInputs blake tile off path := by
    intro x hx
    rw [openingInputs, hpairs, map_append] at hx
    rcases mem_cons.mp hx with rfl | hx
    · exact mem_append_left _ (mem_append_left _ (mem_of_getElem? hrow))
    · rcases mem_append.mp hx with hx | hx
      · obtain ⟨p, hp, rfl⟩ := mem_map.mp hx
        exact mem_append_left _
          (mem_append_right _ (mem_map_of_mem (hinnerPairs p hp)))
      · exact mem_append_right _ hx
  obtain ⟨hfound, hpath⟩ := opening_sound (fun c hc => hblob.size_of_mem_chunks hc)
    (size_of_mem_rows htile (mem_of_getElem? hrow)) hroot hall
    (by rw [hblob.length_chunks]; have := hblob.tile_le hoff; omega)
    (hfree.append_mono hsub)
  exact ⟨hfound, inner, hinner, hpath⟩

/-- **An accepted tile** is the tile of the blob at its offset, and its path is the tile's. -/
theorem tile_sound :
    tile = blobTile blob off ∧
      v4TilePath blake ((chunksOf blob).map blake) off = some path := by
  have hchunk := fun i (hi : i < 32) =>
    tile_chunk_sound hblob hroot htile hoff hclimb hfree hi
  constructor
  · refine eq_of_rows htile (hblob.length_blobTile hoff) fun i hi => ?_
    exact Option.mem_unique ((hchunk i hi).1) (hblob.row_blobTile hoff hi)
  · obtain ⟨-, inner, hinner, hpath⟩ := hchunk 0 (by decide)
    have hdrop := path?_drop hpath (hblob.tileSubtreeDepth_le (Nat.ne_zero_of_lt hoff))
    rw [← hinner, drop_left, hinner,
      show (32 * off + 0) / 2 ^ tileSubtreeDepth = off by rw [tileSubtreeDepth]; omega] at hdrop
    exact hdrop

end Tiles

/-! ### Walks -/

/-- The offset of the tile a walk over a blob reads after `t` steps. -/
def walkOffset (seed : UInt64) (blob : List UInt8) (nTiles : ℕ) : ℕ → ℕ
  | 0 => v4FirstOffset seed nTiles
  | t + 1 => v4NextOffset seed (t + 1)
      ((blobTile blob (walkOffset seed blob nTiles t)).take pomV4SnippetBytes) nTiles

theorem walkOffset_lt (blob : List UInt8) {nTiles : ℕ} (h : nTiles ≠ 0) (t : ℕ) :
    walkOffset seed blob nTiles t < nTiles := by
  cases t <;> exact Nat.mod_lt _ (Nat.pos_of_ne_zero h)

/-- The offsets of a whole walk. -/
def walkOffsets (seed : UInt64) (blob : List UInt8) (nTiles : ℕ) : List ℕ :=
  (range pomV4K).map (walkOffset seed blob nTiles)

theorem lt_of_mem_walkOffsets (blob : List UInt8) {nTiles : ℕ} (h : nTiles ≠ 0) :
    ∀ off ∈ walkOffsets seed blob nTiles, off < nTiles := by
  intro off hoff
  obtain ⟨t, -, rfl⟩ := mem_map.mp hoff
  exact walkOffset_lt seed blob h t

theorem v4Rewalk_concat (step : ℕ) (state : List UInt8) (tiles : List (List UInt8))
    (tile : List UInt8) :
    v4Rewalk step state (tiles ++ [tile])
      = v4Transition (v4Rewalk step state tiles) tile (step + tiles.length) := by
  induction tiles generalizing step state with
  | nil => rfl
  | cons t tiles ih =>
    rw [cons_append, v4Rewalk, ih, v4Rewalk, length_cons, Nat.add_right_comm, ← Nat.add_assoc]

/-- The walk after `m` steps: the offsets read, the last state and the offset to read next. -/
theorem v4WalkStep_run (blob : List UInt8) (nTiles : ℕ) {m : ℕ} (hm : m ≤ pomV4K) :
    let s := (range' 1 m).foldl (v4WalkStep seed blob nTiles)
      ({ states := [v4InitialState seed] }, v4FirstOffset seed nTiles)
    s.1.offsets = (range m).map (walkOffset seed blob nTiles) ∧
      s.1.states.getLast? = some (v4Rewalk 1 (v4InitialState seed)
        ((range m).map fun t => blobTile blob (walkOffset seed blob nTiles t))) ∧
      (m < pomV4K → s.2 = walkOffset seed blob nTiles m) := by
  induction m with
  | zero => exact ⟨rfl, rfl, fun _ => rfl⟩
  | succ m ih =>
    obtain ⟨hoffsets, hstate, hnext⟩ := ih (Nat.le_of_succ_le hm)
    have hoff := hnext hm
    simp only [range'_1_concat, foldl_append, foldl_cons, foldl_nil]
    refine ⟨?_, ?_, fun hlt => ?_⟩
    · rw [v4WalkStep, hoffsets, hoff, range_succ, map_append]
      rfl
    · rw [v4WalkStep, hoff, getLast?_concat, getLastD_eq_getLast?, hstate, Option.getD_some,
        range_succ, map_append, map_singleton, v4Rewalk_concat, length_map, length_range]
    · rw [v4WalkStep, hoff]
      simp only [Nat.add_comm 1 m, if_pos hlt]
      rfl

/-- **The reference walk**: its offsets, and its last state. -/
theorem v4Walk_eq {blob : List UInt8} {nChunks : UInt64} (hblob : IsBlob blob nChunks)
    (htiles : v4NTiles nChunks.toNat ≠ 0) :
    ∃ walk, v4Walk seed blob = .ok walk ∧
      walk.offsets = walkOffsets seed blob (v4NTiles nChunks.toNat) ∧
      walk.states.getLast? = some (v4Rewalk 1 (v4InitialState seed)
        (walk.offsets.map (blobTile blob))) := by
  have hn : blob.length / pomV4ChunkBytes = nChunks.toNat := by
    rw [hblob.length, pomV4ChunkBytes, Nat.mul_div_cancel_left _ (by decide)]
  obtain ⟨hoffsets, hstate, -⟩ :=
    v4WalkStep_run seed blob (v4NTiles nChunks.toNat) (le_refl pomV4K)
  refine ⟨_, ?_, hoffsets, ?_⟩
  · rw [v4Walk, hn, if_neg htiles]
  · rw [hstate, hoffsets, map_map]
    rfl

/-! ### Soundness -/

/-- The strings hashed while the tiles of a proof are checked at these offsets. -/
def proofInputs (blake : List UInt8 → Bytes32) (proof : PomProofV4) (offs : List ℕ) :
    List (List UInt8) :=
  (proof.tiles.zip (offs.zip proof.merkle)).flatMap fun t => tileInputs blake t.1 t.2.1 t.2.2

/-- What the v4 verifier has checked when it accepts. -/
structure Accepted (blake : List UInt8 → Bytes32) (seed : UInt64) (proof : PomProofV4)
    (rT : Bytes32) (nTiles : ℕ) : Prop where
  tiles_length : proof.tiles.length = pomV4K
  merkle_length : proof.merkle.length = pomV4K
  nTiles_ne : nTiles ≠ 0
  sizes : ∀ tile ∈ proof.tiles, tile.length = pomV4TileBytes
  openings : ∀ t ∈ proof.tiles.zip ((v4OffsetChain seed proof.tiles nTiles).zip proof.merkle),
    verifyMerkle blake (v4TileSubtreeRoot blake t.1) t.2.1 t.2.2 rT = true

/-- A list read entry by entry. -/
theorem eq_map_range {α : Type} {l : List α} {n : ℕ} {f : ℕ → α} (hlength : l.length = n)
    (h : ∀ t < n, l[t]? = some (f t)) : l = (range n).map f := by
  refine ext_getElem (by rw [length_map, length_range, hlength]) fun t h₁ h₂ => ?_
  rw [getElem_map, getElem_range]
  exact Option.mem_unique (getElem?_eq_getElem h₁) (h t (hlength ▸ h₁))

section Verifier

variable {blake : List UInt8 → Bytes32} {seed : UInt64} {proof : PomProofV4} {rT : Bytes32}
  {nChunks : UInt64} {finalState : UInt64} {t : ℕ}

/-- The v4 verifier accepts exactly when all its checks pass. -/
theorem verifyPomProofV4_eq_ok :
    verifyPomProofV4 blake seed proof rT nChunks = .ok finalState ↔
      Accepted blake seed proof rT (v4NTiles nChunks.toNat) ∧
        finalState = fold64 (v4StateRoot blake (v4Rewalk 1 (v4InitialState seed) proof.tiles)) := by
  have hsizes : ¬ (proof.tiles.any fun tile => decide (tile.length ≠ pomV4TileBytes)) = true ↔
      ∀ tile ∈ proof.tiles, tile.length = pomV4TileBytes := by simp
  have hopen : ¬ (!verifyTileMerkle blake proof
      (v4OffsetChain seed proof.tiles (v4NTiles nChunks.toNat)) rT) = true ↔
      ∀ t ∈ proof.tiles.zip ((v4OffsetChain seed proof.tiles (v4NTiles nChunks.toNat)).zip
        proof.merkle), verifyMerkle blake (v4TileSubtreeRoot blake t.1) t.2.1 t.2.2 rT = true := by
    rw [Bool.not_eq_true, Bool.not_eq_false', verifyTileMerkle, all_eq_true]
  simp only [verifyPomProofV4, ite_error_eq_ok, hsizes, hopen, not_or, not_not, Except.ok.injEq]
  constructor
  · rintro ⟨⟨htiles, hmerkle⟩, hn, hsz, hop, rfl⟩
    exact ⟨⟨htiles, hmerkle, hn, hsz, hop⟩, rfl⟩
  · rintro ⟨ha, rfl⟩
    exact ⟨⟨ha.tiles_length, ha.merkle_length⟩, ha.nTiles_ne, ha.sizes, ha.openings, rfl⟩

variable {blob : List UInt8}

/-- A proof read step by step: tile, offset and path. -/
theorem Accepted.getElem?_zip {nTiles : ℕ} (ha : Accepted blake seed proof rT nTiles)
    (ht : t < pomV4K) :
    ∃ tile path, proof.tiles[t]? = some tile ∧ proof.merkle[t]? = some path ∧
      (tile, v4OffsetAt seed proof.tiles nTiles t, path) ∈
        proof.tiles.zip ((v4OffsetChain seed proof.tiles nTiles).zip proof.merkle) := by
  have htile : t < proof.tiles.length := ha.tiles_length.symm ▸ ht
  have hpath : t < proof.merkle.length := ha.merkle_length.symm ▸ ht
  refine ⟨proof.tiles[t], proof.merkle[t], getElem?_eq_getElem htile,
    getElem?_eq_getElem hpath, mem_of_getElem? (i := t) ?_⟩
  rw [getElem?_zip_eq_some, getElem?_zip_eq_some]
  refine ⟨getElem?_eq_getElem htile, ?_, getElem?_eq_getElem hpath⟩
  rw [v4OffsetChain, getElem?_map, getElem?_range ht]
  rfl

section

variable (ha : Accepted blake seed proof rT (v4NTiles nChunks.toNat)) (hblob : IsBlob blob nChunks)
  (hroot : root? (hashPair blake) ((chunksOf blob).map blake) = some rT)
  (hfree : CollisionFree blake (treeInputs blake (chunksOf blob) ++ proofInputs blake proof
    (v4OffsetChain seed proof.tiles (v4NTiles nChunks.toNat))))
include ha hblob hroot hfree

/-- A step whose offset is the one of the walk has the tile and the path of the blob there. -/
theorem Accepted.tile (ht : t < pomV4K)
    (hoff : v4OffsetAt seed proof.tiles (v4NTiles nChunks.toNat) t
      = walkOffset seed blob (v4NTiles nChunks.toNat) t) :
    proof.tiles[t]? = some (blobTile blob (walkOffset seed blob (v4NTiles nChunks.toNat) t)) ∧
      ∃ path, proof.merkle[t]? = some path ∧ v4TilePath blake ((chunksOf blob).map blake)
        (walkOffset seed blob (v4NTiles nChunks.toNat) t) = some path := by
  obtain ⟨tile, path, htile, hpath, hmem⟩ := ha.getElem?_zip ht
  have hopen := ha.openings _ hmem
  rw [verifyMerkle, Bool.and_eq_true, decide_eq_true_eq, decide_eq_true_eq] at hopen
  have hsub : tileInputs blake tile (v4OffsetAt seed proof.tiles (v4NTiles nChunks.toNat) t) path
      ⊆ proofInputs blake proof (v4OffsetChain seed proof.tiles (v4NTiles nChunks.toNat)) :=
    fun x hx => mem_flatMap.mpr ⟨_, hmem, hx⟩
  have hlt : v4OffsetAt seed proof.tiles (v4NTiles nChunks.toNat) t < v4NTiles nChunks.toNat := by
    rw [hoff]
    exact walkOffset_lt seed blob ha.nTiles_ne t
  obtain ⟨rfl, hgenuine⟩ := tile_sound hblob hroot (ha.sizes tile (mem_of_getElem? htile)) hlt
    hopen.2 (hfree.append_mono hsub)
  rw [hoff] at htile hgenuine
  exact ⟨htile, path, hpath, hgenuine⟩

/-- **The offsets of an accepted proof are those of the walk**: by induction along the walk, since
each follows from the tile before it. -/
theorem Accepted.offset (ht : t < pomV4K) :
    v4OffsetAt seed proof.tiles (v4NTiles nChunks.toNat) t
      = walkOffset seed blob (v4NTiles nChunks.toNat) t := by
  induction t with
  | zero => rfl
  | succ t ih =>
    have ht' : t < pomV4K := Nat.lt_of_succ_lt ht
    obtain ⟨htile, -⟩ := ha.tile hblob hroot hfree ht' (ih ht')
    rw [v4OffsetAt, getD_eq_getElem?_getD, htile]
    rfl

/-- **An accepted proof is the walk's**: its tiles are those of the blob at the offsets of the
walk, its paths theirs. -/
theorem Accepted.genuine :
    proof.tiles = (walkOffsets seed blob (v4NTiles nChunks.toNat)).map (blobTile blob) ∧
      proof.merkle.map some = (walkOffsets seed blob (v4NTiles nChunks.toNat)).map
        (v4TilePath blake ((chunksOf blob).map blake)) := by
  have htile := fun t (ht : t < pomV4K) =>
    ha.tile hblob hroot hfree ht (ha.offset hblob hroot hfree ht)
  rw [walkOffsets, map_map, map_map]
  refine ⟨eq_map_range ha.tiles_length fun t ht => (htile t ht).1,
    eq_map_range (by rw [length_map, ha.merkle_length]) fun t ht => ?_⟩
  obtain ⟨-, path, hpath, hgenuine⟩ := htile t ht
  rw [getElem?_map, hpath, Function.comp_apply, hgenuine]
  rfl

end

end Verifier

/-! ### Completeness -/

section Prover

variable {blake : List UInt8 → Bytes32} {blob : List UInt8} {nChunks : UInt64} {off : ℕ}

/-- The leaves below a tile are the digests of its rows. -/
theorem IsBlob.leaves_tile (hblob : IsBlob blob nChunks) (hoff : off < v4NTiles nChunks.toNat) :
    (((chunksOf blob).map blake).drop (off * 2 ^ tileSubtreeDepth)).take (2 ^ tileSubtreeDepth)
      = (rows (blobTile blob off)).map blake := by
  refine ext_getElem? fun i => ?_
  rw [getElem?_take, getElem?_drop, getElem?_map, getElem?_map,
    show 2 ^ tileSubtreeDepth = 32 from rfl, Nat.mul_comm off 32]
  by_cases hi : i < 32
  · rw [if_pos hi, hblob.row_blobTile hoff hi, getElem?_rows _ hi]
  · rw [if_neg hi, getElem?_eq_none (by rw [length_rows]; omega)]
    rfl

/-- At the level of the tiles, a whole tile has its subtree root. -/
theorem IsBlob.getElem?_tileLevel (blake : List UInt8 → Bytes32) (hblob : IsBlob blob nChunks)
    (hoff : off < v4NTiles nChunks.toNat) :
    ((foldLevel (hashPair blake))^[tileSubtreeDepth] ((chunksOf blob).map blake))[off]?
      = some (v4TileSubtreeRoot blake (blobTile blob off)) := by
  have hiter := iterate_foldLevel_pathLen (root?_rows blake (blobTile blob off))
  rw [getElem?_iterate_foldLevel, hblob.leaves_tile hoff]
  rfl

/-- A tree over at most `2 ^ 64` nodes has paths the verifier reads. -/
theorem pathLen_le_of_lt {n : ℕ} (h : n ≤ 2 ^ 64) : pathLen n ≤ 64 := by
  rw [pathLen_eq_clog]
  exact Nat.clog_le_of_le_pow h

theorem v4TilePathLen_le (nChunks : UInt64) :
    v4TilePathLen (v4TileLevelLen nChunks.toNat) ≤ 64 := by
  have hn : nChunks.toNat < 2 ^ 64 := nChunks.toNat_lt
  rw [v4TileLevelLen, show pomV4TileChunks = 32 from rfl]
  exact pathLen_le_of_lt (by omega)

/-- **The path of a whole tile** is found and accepted, over pairs of the tree. -/
theorem IsBlob.tilePath (hblob : IsBlob blob nChunks) (hoff : off < v4NTiles nChunks.toNat)
    {rT : Bytes32} (hroot : root? (hashPair blake) ((chunksOf blob).map blake) = some rT) :
    ∃ path, v4TilePath blake ((chunksOf blob).map blake) off = some path ∧
      path.length = v4TilePathLen (v4TileLevelLen nChunks.toNat) ∧
      verifyMerkle blake (v4TileSubtreeRoot blake (blobTile blob off)) off path rT = true ∧
      climbPairs (hashPair blake) (v4TileSubtreeRoot blake (blobTile blob off)) off path
        ⊆ treePairs (hashPair blake) ((chunksOf blob).map blake) := by
  obtain ⟨path, r, hpath, hlength, hr, hclimb, hpairs⟩ :=
    path_climbs (hashPair blake) (hblob.getElem?_tileLevel blake hoff)
  rw [root?_iterate (hblob.tileSubtreeDepth_le (Nat.ne_zero_of_lt hoff)), hroot] at hr
  cases hr
  have hlen : path.length = v4TilePathLen (v4TileLevelLen nChunks.toNat) := by
    rw [hlength, length_iterate_foldLevel, length_map, hblob.length_chunks]
    rfl
  refine ⟨path, hpath, hlen, ?_, Subset.trans hpairs (treePairs_iterate _ _)⟩
  rw [verifyMerkle, hclimb, decide_eq_true (hlen.trans_le (v4TilePathLen_le nChunks)),
    decide_eq_true rfl]
  rfl

/-- The proof of a walk over a blob. -/
def walkProof (blake : List UInt8 → Bytes32) (seed : UInt64) (tier : UInt8) (blob : List UInt8)
    (nTiles : ℕ) : PomProofV4 where
  tier := tier
  tiles := (walkOffsets seed blob nTiles).map (blobTile blob)
  merkle := (walkOffsets seed blob nTiles).map fun off =>
    (v4TilePath blake ((chunksOf blob).map blake) off).getD []

/-- The offsets derived from the tiles of a walk are those of the walk. -/
theorem v4OffsetChain_walk (seed : UInt64) (blob : List UInt8) (nTiles : ℕ) :
    v4OffsetChain seed ((walkOffsets seed blob nTiles).map (blobTile blob)) nTiles
      = walkOffsets seed blob nTiles := by
  refine map_congr_left fun t ht => ?_
  cases t with
  | zero => rfl
  | succ t =>
    rw [v4OffsetAt, getD_eq_getElem?_getD, walkOffsets, getElem?_map, getElem?_map,
      getElem?_range (Nat.lt_of_succ_lt (mem_range.mp ht))]
    rfl

/-- What the verifier checks of the proof of a walk: the tile at each offset, with its path. -/
theorem zip_walkProof (blake : List UInt8 → Bytes32) (seed : UInt64) (tier : UInt8)
    (blob : List UInt8) (nTiles : ℕ) :
    let proof := walkProof blake seed tier blob nTiles
    proof.tiles.zip ((v4OffsetChain seed proof.tiles nTiles).zip proof.merkle)
      = (walkOffsets seed blob nTiles).map fun off =>
          (blobTile blob off, off, (v4TilePath blake ((chunksOf blob).map blake) off).getD []) := by
  set offsets := walkOffsets seed blob nTiles with hoffsets
  simp only [walkProof]
  rw [v4OffsetChain_walk, ← hoffsets]
  nth_rewrite 2 [← map_id offsets]
  rw [zip_map', zip_map']
  rfl

/-- A walk of the prover is accepted step by step. -/
theorem accepted_walk (hblob : IsBlob blob nChunks) (htiles : v4NTiles nChunks.toNat ≠ 0)
    (seed : UInt64) (tier : UInt8) {rT : Bytes32}
    (hroot : root? (hashPair blake) ((chunksOf blob).map blake) = some rT) :
    Accepted blake seed (walkProof blake seed tier blob (v4NTiles nChunks.toNat)) rT
      (v4NTiles nChunks.toNat) := by
  set nTiles := v4NTiles nChunks.toNat
  set offsets := walkOffsets seed blob nTiles with hoffsets
  have hlt := lt_of_mem_walkOffsets seed blob htiles
  have hlength : offsets.length = pomV4K := by rw [hoffsets, walkOffsets, length_map, length_range]
  refine ⟨by rw [walkProof, length_map, hlength], by rw [walkProof, length_map, hlength],
    htiles, ?_, ?_⟩
  · intro tile htile
    obtain ⟨off, hoff, rfl⟩ := mem_map.mp htile
    exact hblob.length_blobTile (hlt off hoff)
  · intro x hx
    rw [zip_walkProof] at hx
    obtain ⟨off, hoff, rfl⟩ := mem_map.mp hx
    obtain ⟨path, hfound, -, hverify, -⟩ := hblob.tilePath (hlt off hoff) hroot
    simpa [hfound] using hverify

/-- All that is hashed for the proof of a walk is hashed for the tree of the blob. -/
theorem proofInputs_walkProof (hblob : IsBlob blob nChunks) (htiles : v4NTiles nChunks.toNat ≠ 0)
    (seed : UInt64) (tier : UInt8) {rT : Bytes32}
    (hroot : root? (hashPair blake) ((chunksOf blob).map blake) = some rT) :
    let proof := walkProof blake seed tier blob (v4NTiles nChunks.toNat)
    proofInputs blake proof (v4OffsetChain seed proof.tiles (v4NTiles nChunks.toNat))
      ⊆ treeInputs blake (chunksOf blob) := by
  intro proof x hx
  rw [proofInputs, zip_walkProof, flatMap_map] at hx
  obtain ⟨off, hoff, hx⟩ := mem_flatMap.mp hx
  have hlt := lt_of_mem_walkOffsets seed blob htiles off hoff
  obtain ⟨path, hfound, -, -, hpairs⟩ := hblob.tilePath hlt hroot
  rw [hfound, Option.getD_some] at hx
  rcases mem_append.mp hx with hx | hx
  · rcases mem_append.mp hx with hrow | hx
    · obtain ⟨i, hi, rfl⟩ := mem_map.mp hrow
      exact mem_append_left _ (mem_of_getElem? (hblob.row_blobTile hlt (mem_range.mp hi)))
    · rw [← hblob.leaves_tile hlt] at hx
      exact mem_append_right _ (map_subset _ (treePairs_slice _ _ _) hx)
  · exact mem_append_right _ (map_subset _ hpairs hx)

/-- A blob with a whole tile has a root. -/
theorem IsBlob.exists_root (blake : List UInt8 → Bytes32) (hblob : IsBlob blob nChunks)
    (htiles : v4NTiles nChunks.toNat ≠ 0) :
    ∃ rT, root? (hashPair blake) ((chunksOf blob).map blake) = some rT := by
  obtain ⟨-, rT, -, -, hroot, -⟩ := path_climbs (hashPair blake)
    (hblob.getElem?_tileLevel blake (Nat.pos_of_ne_zero htiles))
  rw [root?_iterate (hblob.tileSubtreeDepth_le htiles)] at hroot
  exact ⟨rT, hroot⟩

end Prover

/-! ### The v4 walk -/

section V4

variable {blake : List UInt8 → Bytes32} {seed : UInt64} {proof : PomProofV4} {rT : Bytes32}
  {nChunks : UInt64} {finalState : UInt64} {blob : List UInt8}

/-- **Soundness of the v4 walk**: over every blob behind the root, the tiles of an accepted proof
are the tiles the walk reads, and the returned value is the folded root of its last state. -/
theorem pomV4_sound (hblob : IsBlob blob nChunks)
    (hroot : Merkle.root? (hashPair blake) ((chunksOf blob).map blake) = some rT)
    (hfree : CollisionFree blake (treeInputs blake (chunksOf blob) ++ proofInputs blake proof
      (v4OffsetChain seed proof.tiles (v4NTiles nChunks.toNat))))
    (hok : verifyPomProofV4 blake seed proof rT nChunks = .ok finalState) :
    ∃ walk last, v4Walk seed blob = .ok walk ∧
      proof.tiles = walk.offsets.map (blobTile blob) ∧
      walk.states.getLast? = some last ∧ finalState = fold64 (v4StateRoot blake last) := by
  obtain ⟨ha, rfl⟩ := verifyPomProofV4_eq_ok.mp hok
  obtain ⟨walk, hwalk, hoffsets, hlast⟩ := v4Walk_eq seed hblob ha.nTiles_ne
  obtain ⟨htiles, -⟩ := ha.genuine hblob hroot hfree
  rw [← hoffsets] at htiles
  refine ⟨walk, _, hwalk, htiles, hlast, ?_⟩
  rw [htiles]

/-- A digest that tells the strings of a small tree apart: one more than the sum of the bytes. -/
def sumDigest (bytes : List UInt8) : Bytes32 :=
  ⟨leBytes 32 (bytes.foldl (fun n b => n + b.toNat) 1), length_leBytes 32 _⟩

/-- A blob of two whole tiles and one more chunk: at the level of the tiles its tree has three
nodes, of which a walk reads the first two. -/
def twoTiles : List UInt8 :=
  replicate 1024 0 ++ replicate 1024 2 ++ replicate 32 3

theorem isBlob_twoTiles : IsBlob twoTiles 65 :=
  ⟨by rw [twoTiles, length_append, length_append, length_replicate, length_replicate,
    length_replicate]; rfl⟩

/-- The strings hashed for the tree of `twoTiles`: its three chunks, and the pairs of digests
above them. -/
def twoTilesInputs : List (List UInt8) :=
  [replicate 32 0, replicate 32 2, replicate 32 3] ++
    [(1, 1), (3, 3), (7, 7), (15, 15), (31, 31), (65, 65), (131, 131), (263, 263), (17, 17),
      (35, 35), (97, 97), (195, 195), (391, 391), (273, 273), (37, 37), (75, 75), (63, 71),
      (135, 151)].map fun p => leBytes 32 p.1 ++ leBytes 32 p.2

/-- No two strings hashed for the tree of `twoTiles` collide. -/
theorem collisionFree_twoTiles :
    CollisionFree sumDigest (treeInputs sumDigest (chunksOf twoTiles)) := by
  have hfree : CollisionFree sumDigest twoTilesInputs := by decide +kernel
  have hsub : (treeInputs sumDigest (chunksOf twoTiles)).all (twoTilesInputs.contains ·) := by
    decide +kernel
  refine hfree.mono fun x hx => ?_
  simpa using all_eq_true.mp hsub x hx

/-- The proof of the walk over `twoTiles`. -/
def twoTilesProof : PomProofV4 :=
  walkProof sumDigest 7 0 twoTiles 2

/-- The walk over `twoTiles` reads both tiles. -/
theorem walkOffsets_twoTiles :
    0 ∈ walkOffsets 7 twoTiles 2 ∧ 1 ∈ walkOffsets 7 twoTiles 2 := by
  have hfirst : walkOffset 7 twoTiles 2 0 = 0 := by decide +kernel
  have hsnippet : (blobTile twoTiles 0).take pomV4SnippetBytes = replicate 32 0 := by
    decide +kernel
  have hnext : walkOffset 7 twoTiles 2 1 = 1 := by
    rw [walkOffset, hfirst, hsnippet]
    decide +kernel
  exact ⟨mem_map.mpr ⟨0, by decide, hfirst⟩, mem_map.mpr ⟨1, by decide, hnext⟩⟩

/-- The proof of the walk over `twoTiles` is accepted, and no string hashed for it collides. -/
theorem accepted_twoTiles :
    ∃ rT, root? (hashPair sumDigest) ((chunksOf twoTiles).map sumDigest) = some rT ∧
      Accepted sumDigest 7 twoTilesProof rT 2 ∧
      CollisionFree sumDigest (treeInputs sumDigest (chunksOf twoTiles) ++
        proofInputs sumDigest twoTilesProof (v4OffsetChain 7 twoTilesProof.tiles 2)) := by
  have htiles : v4NTiles (65 : UInt64).toNat ≠ 0 := by decide
  obtain ⟨rT, hroot⟩ := isBlob_twoTiles.exists_root sumDigest htiles
  refine ⟨rT, hroot, accepted_walk isBlob_twoTiles htiles 7 0 hroot, ?_⟩
  exact collisionFree_twoTiles.mono (append_subset.mpr
    ⟨Subset.refl _, proofInputs_walkProof isBlob_twoTiles htiles 7 0 hroot⟩)

/-- The accepted proof of a walk that reads two tiles. -/
theorem pomV4_sound_twoTiles :
    ∃ rT finalState walk last,
      verifyPomProofV4 sumDigest 7 twoTilesProof rT 65 = .ok finalState ∧
      v4Walk 7 twoTiles = .ok walk ∧ 0 ∈ walk.offsets ∧ 1 ∈ walk.offsets ∧
      twoTilesProof.tiles = walk.offsets.map (blobTile twoTiles) ∧
      walk.states.getLast? = some last ∧ finalState = fold64 (v4StateRoot sumDigest last) := by
  obtain ⟨rT, hroot, ha, hfree⟩ := accepted_twoTiles
  have hok : verifyPomProofV4 sumDigest 7 twoTilesProof rT 65 = .ok _ :=
    verifyPomProofV4_eq_ok.mpr ⟨ha, rfl⟩
  obtain ⟨walk, last, hwalk, htiles⟩ := pomV4_sound isBlob_twoTiles hroot hfree hok
  obtain ⟨walk', hwalk', hoffsets, -⟩ := v4Walk_eq 7 isBlob_twoTiles (by decide)
  obtain rfl := Except.ok.inj (hwalk.symm.trans hwalk')
  obtain ⟨hfirst, hsecond⟩ := walkOffsets_twoTiles
  exact ⟨rT, _, walk, last, hok, hwalk, hoffsets ▸ hfirst, hoffsets ▸ hsecond, htiles⟩

/-- **Completeness of the v4 walk**: the proof of the reference prover is accepted against the
root of the blob, with the folded root of the walk's last state. -/
theorem pomV4_complete (blake : List UInt8 → Bytes32) (seed : UInt64) (tier : UInt8)
    (hblob : IsBlob blob nChunks) (htiles : v4NTiles nChunks.toNat ≠ 0) :
    ∃ proof rT walk last,
      v4Prove blake seed tier blob ((chunksOf blob).map blake) = some (.ok proof) ∧
      Merkle.root? (hashPair blake) ((chunksOf blob).map blake) = some rT ∧
      v4Walk seed blob = .ok walk ∧ walk.states.getLast? = some last ∧
      verifyPomProofV4 blake seed proof rT nChunks = .ok (fold64 (v4StateRoot blake last)) := by
  obtain ⟨walk, hwalk, hoffsets, hlast⟩ := v4Walk_eq seed hblob htiles
  obtain ⟨rT, hroot⟩ := hblob.exists_root blake htiles
  have hpaths : walk.offsets.mapM (v4TilePath blake ((chunksOf blob).map blake))
      = some (walk.offsets.map fun off =>
          (v4TilePath blake ((chunksOf blob).map blake) off).getD []) := by
    refine mapM_eq_some_map fun off hoff => ?_
    obtain ⟨path, hpath, -⟩ :=
      hblob.tilePath (lt_of_mem_walkOffsets seed blob htiles off (hoffsets ▸ hoff)) hroot
    rw [hpath]
    rfl
  refine ⟨walkProof blake seed tier blob (v4NTiles nChunks.toNat), rT, walk, _, ?_, hroot, hwalk,
    hlast, ?_⟩
  · rw [v4Prove, hwalk]
    simp only [hpaths]
    rw [hoffsets]
    rfl
  · rw [verifyPomProofV4_eq_ok, hoffsets]
    exact ⟨accepted_walk hblob htiles seed tier hroot, rfl⟩

/-- The prover on a blob of two tiles. -/
theorem pomV4_complete_twoTiles :
    ∃ proof rT walk last,
      v4Prove sumDigest 7 0 twoTiles ((chunksOf twoTiles).map sumDigest) = some (.ok proof) ∧
      Merkle.root? (hashPair sumDigest) ((chunksOf twoTiles).map sumDigest) = some rT ∧
      v4Walk 7 twoTiles = .ok walk ∧ walk.states.getLast? = some last ∧
      verifyPomProofV4 sumDigest 7 proof rT 65 = .ok (fold64 (v4StateRoot sumDigest last)) :=
  pomV4_complete sumDigest 7 0 isBlob_twoTiles (by decide)

end V4

end Pom

end KeryxNode
