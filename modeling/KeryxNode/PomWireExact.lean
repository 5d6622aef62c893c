import KeryxNode.PomSchedule

/-!
# The Compact Form Is Exact

What the compact form loses and what it admits. A decoded proof is encoded to the bytes it came
from, whatever they are: there is no other string for it. A proof the verifier accepts against the
root of a blob is encoded and comes back unchanged, where the digest does not collide on what is
hashed: its paths are then those of the tree, which have a schedule.

## Main results

* `compact_canonical`: a byte string that decodes is the encoding of what it decodes to.
* `compact_roundTrip`: an accepted proof survives the compact form.
-/

namespace KeryxNode

open List OrdMap

namespace Pom

open ByteCodec Body

variable {bytes : List UInt8}

/-! ### Bytes -/

/-- The width of the header and the tiles. -/
theorem headerBytes_add_tiles : headerBytes + pomV4K * pomV4TileBytes = 262189 := rfl

theorem bytes_bytes32OfSlice (h : bytes.length = 32) :
    (bytes32OfSlice bytes).bytes = bytes := by
  rw [bytes32OfSlice, dif_pos h]

theorem bytes32OfSlice_bytes (b : Bytes32) : bytes32OfSlice b.bytes = b := by
  rw [bytes32OfSlice, dif_pos b.size]

/-- The fields the decoder reads off a byte string. -/
structure WireFields where
  tier : UInt8
  powValue : Bytes32
  finalState : UInt64
  tiles : List (List UInt8)
  supplied : List Bytes32

/-- The fields at their offsets. -/
def readFields (bytes : List UInt8) : WireFields where
  tier := bytes.headD 0
  powValue := bytes32OfSlice (slice bytes 1 33)
  finalState := UInt64.ofNat (leValue (slice bytes 33 41))
  tiles := (List.range pomV4K).map fun i =>
    slice bytes (headerBytes + i * pomV4TileBytes) (headerBytes + (i + 1) * pomV4TileBytes)
  supplied := (List.range (leValue (slice bytes 41 45))).map fun i =>
    bytes32OfSlice (slice bytes (headerBytes + pomV4K * pomV4TileBytes + i * 32)
      (headerBytes + pomV4K * pomV4TileBytes + (i + 1) * 32))

/-- A string has the length its node count asks for. -/
def WellSized (bytes : List UInt8) : Prop :=
  headerBytes ≤ bytes.length ∧
    bytes.length = leValue (slice bytes 41 45) * 32 + headerBytes + pomV4K * pomV4TileBytes

/-- The tiles of a string of the right length are whole. -/
theorem WellSized.tile_size {tile : List UInt8} (h : WellSized bytes)
    (htile : tile ∈ (readFields bytes).tiles) : tile.length = pomV4TileBytes := by
  obtain ⟨i, hi, rfl⟩ := mem_map.mp htile
  have hK : i < 256 := mem_range.mp hi
  have hlen := h.2
  rw [Nat.add_assoc, headerBytes_add_tiles] at hlen
  rw [length_slice] <;> rw [show headerBytes = 45 from rfl, show pomV4TileBytes = 1024 from rfl] <;>
    omega

/-- **A string of the right length is its fields**, written back. -/
theorem WellSized.wireBytes_readFields (h : WellSized bytes) :
    wireBytes (readFields bytes).tier (readFields bytes).powValue (readFields bytes).finalState
      (readFields bytes).tiles (readFields bytes).supplied = bytes := by
  have hlen := h.2
  rw [Nat.add_assoc, headerBytes_add_tiles] at hlen
  have htier : (readFields bytes).tier :: slice bytes 1 33 = slice bytes 0 33 := by
    cases bytes with
    | nil => rw [length_nil] at hlen; omega
    | cons b bytes => rfl
  have hpow : (readFields bytes).powValue.bytes = slice bytes 1 33 :=
    bytes_bytes32OfSlice (length_slice (by omega))
  have hstate : leBytes 8 (readFields bytes).finalState.toNat = slice bytes 33 41 := by
    have hwidth : (slice bytes 33 41).length = 8 := length_slice (by omega)
    have hlt := leValue_lt (slice bytes 33 41)
    rw [hwidth] at hlt
    rw [show (readFields bytes).finalState = UInt64.ofNat (leValue (slice bytes 33 41)) from rfl,
      UInt64.toNat_ofNat_of_lt' hlt]
    exact hwidth ▸ leBytes_leValue (slice bytes 33 41)
  have hcount : leBytes 4 (readFields bytes).supplied.length = slice bytes 41 45 := by
    have hwidth : (slice bytes 41 45).length = 4 := length_slice (by omega)
    rw [readFields, length_map, length_range]
    exact hwidth ▸ leBytes_leValue (slice bytes 41 45)
  have htiles : (readFields bytes).tiles.flatten = slice bytes 45 262189 :=
    flatten_slices bytes headerBytes pomV4TileBytes pomV4K
  have hnodes : ((readFields bytes).supplied.map Bytes32.bytes).flatten
      = slice bytes 262189 bytes.length := by
    have hcut : (readFields bytes).supplied.map Bytes32.bytes
        = (range (leValue (slice bytes 41 45))).map fun i =>
            slice bytes (262189 + i * 32) (262189 + (i + 1) * 32) := by
      rw [readFields, map_map]
      refine map_congr_left fun i hi => bytes_bytes32OfSlice ?_
      have hi := mem_range.mp hi
      rw [headerBytes_add_tiles, length_slice (by omega)]
      omega
    rw [hcut, flatten_slices, hlen, Nat.add_comm 262189]
  rw [wireBytes, hpow, htier, hstate, hcount, htiles, hnodes,
    slice_append_slice bytes (by decide) (by decide),
    slice_append_slice bytes (by decide) (by decide),
    slice_append_slice bytes (by decide) (by decide),
    slice_append_slice bytes (by decide) (by omega), slice_all rfl]

section Written

variable (tier : UInt8) (powValue : Bytes32) (finalState : UInt64) {tiles : List (List UInt8)}
  {nodes : List Bytes32}

theorem length_flatten_of_width {blocks : List (List UInt8)} {w : ℕ}
    (h : ∀ b ∈ blocks, b.length = w) : blocks.flatten.length = blocks.length * w := by
  rw [length_flatten, map_congr_left h, map_const', sum_replicate_nat]

/-- The fixed part of a written string. -/
def wireHeader (count : ℕ) : List UInt8 :=
  tier :: powValue.bytes ++ leBytes 8 finalState.toNat ++ leBytes 4 count

/-- **A written string is read back**: it has the right length and its fields. -/
theorem readFields_wireBytes (htiles : tiles.length = pomV4K)
    (hsizes : ∀ tile ∈ tiles, tile.length = pomV4TileBytes) (hnodes : nodes.length < 2 ^ 32) :
    WellSized (wireBytes tier powValue finalState tiles nodes) ∧
      readFields (wireBytes tier powValue finalState tiles nodes)
        = ⟨tier, powValue, finalState, tiles, nodes⟩ := by
  set header := wireHeader tier powValue finalState nodes.length with hheader
  set body := (nodes.map Bytes32.bytes).flatten with hbody
  have hblocks : ∀ b ∈ nodes.map Bytes32.bytes, b.length = 32 :=
    forall_mem_map.mpr fun n _ => n.size
  have hsplit : wireBytes tier powValue finalState tiles nodes
      = header ++ tiles.flatten ++ body := rfl
  have hheaderLen : header.length = 45 := by simp [header, wireHeader, powValue.size]
  have htilesLen : (header ++ tiles.flatten).length = 262189 := by
    rw [length_append, hheaderLen, length_flatten_of_width hsizes, htiles]
    rfl
  have hbodyLen : body.length = nodes.length * 32 := by
    rw [hbody, length_flatten_of_width hblocks, length_map]
  -- The fields of the header.
  have hpow : slice (header ++ tiles.flatten ++ body) 1 33 = powValue.bytes := by
    simp [hheader, wireHeader, powValue.size]
  have hstate : slice (header ++ tiles.flatten ++ body) 33 41 = leBytes 8 finalState.toNat := by
    simp [hheader, wireHeader, powValue.size]
  have hcount : leValue (slice (header ++ tiles.flatten ++ body) 41 45) = nodes.length := by
    have hfield : slice (header ++ tiles.flatten ++ body) 41 45 = leBytes 4 nodes.length := by
      simp [hheader, wireHeader, powValue.size]
    rw [hfield, leValue_leBytes]
    exact Nat.mod_eq_of_lt hnodes
  rw [hsplit]
  refine ⟨⟨?_, ?_⟩, ?_⟩
  · rw [length_append, htilesLen]
    exact Nat.le_add_right_of_le (by decide)
  · rw [hcount, length_append, htilesLen, Nat.add_assoc, headerBytes_add_tiles]
    omega
  · have hfields := slices_flatten hsizes header body
    have hsupplied := congrArg (map bytes32OfSlice)
      (slices_flatten hblocks (header ++ tiles.flatten) [])
    rw [htiles, hheaderLen] at hfields
    rw [append_nil, length_map, htilesLen, map_map, map_map] at hsupplied
    have hlt : finalState.toNat < 256 ^ 8 := finalState.toNat_lt
    rw [readFields, hpow, hstate, hcount, bytes32OfSlice_bytes, leValue_leBytes,
      Nat.mod_eq_of_lt hlt, UInt64.ofNat_toNat]
    exact congrArg₂ (WireFields.mk tier powValue finalState) hfields
      (hsupplied.trans (map_id'' bytes32OfSlice_bytes nodes))

end Written

/-! ### Decoder and encoder -/

section Codec

variable {blake : List UInt8 → Bytes32} {seed nChunks : UInt64} {proof : PomProof}

/-- The nodes and paths of the tiles of a walk have a schedule. -/
def Scheduled (blake : List UInt8 → Bytes32) (seed nChunks : UInt64) (tiles : List (List UInt8))
    (nodes : List Bytes32) (paths : List (List Bytes32)) : Prop :=
  Schedule blake (v4OffsetChain seed tiles (v4NTiles nChunks.toNat))
    (v4TilePathLen (v4TileLevelLen nChunks.toNat)) 0 (v4TileLevelLen nChunks.toNat)
    (tileLevel blake (v4OffsetChain seed tiles (v4NTiles nChunks.toNat)) tiles) nodes paths

theorem length_v4OffsetChain (tiles : List (List UInt8)) (nTiles : ℕ) :
    (v4OffsetChain seed tiles nTiles).length = pomV4K := by
  rw [v4OffsetChain, length_map, length_range]

/-- The decoder accepts a string of the right length whose nodes have a schedule. -/
theorem decodeV4Deduped_eq_ok :
    decodeV4Deduped blake bytes seed nChunks = .ok proof ↔
      WellSized bytes ∧ v4NTiles nChunks.toNat ≠ 0 ∧
        ∃ paths, Scheduled blake seed nChunks (readFields bytes).tiles (readFields bytes).supplied
            paths ∧
          proof = { tier := (readFields bytes).tier, powValue := (readFields bytes).powValue,
                    finalState := (readFields bytes).finalState,
                    v4 := some { tier := (readFields bytes).tier, tiles := (readFields bytes).tiles,
                                 merkle := paths } } := by
  have hpre : (replicate pomV4K ([] : List Bytes32)).length = (v4OffsetChain seed
      (readFields bytes).tiles (v4NTiles nChunks.toNat)).length := by
    rw [length_replicate, length_v4OffsetChain]
  have hpaths : ∀ {nodes paths}, Scheduled blake seed nChunks (readFields bytes).tiles nodes paths →
      zipWith (· ++ ·) (replicate pomV4K []) paths = paths := by
    intro nodes paths h
    have hlength := h.paths_length.1
    rw [length_v4OffsetChain] at hlength
    refine ext_getElem (by simp [hlength]) fun i h₁ h₂ => ?_
    simp
  rw [decodeV4Deduped, ite_error_eq_ok, ite_error_eq_ok, ite_error_eq_ok, not_lt, not_not,
    ← and_assoc]
  refine and_congr_right fun _ => and_congr_right fun _ => ?_
  rw [bind_eq_ok_iff, Prod.exists]
  constructor
  · rintro ⟨cursor, out, hwalk, hend⟩
    obtain ⟨nodes, rest, paths, hdrop, rfl, rfl, hschedule⟩ := (decodeWalk_iff hpre).mp hwalk
    obtain ⟨hcursor, hproof⟩ := ite_error_eq_ok.mp hend
    have hall : (readFields bytes).supplied = nodes := by
      have hsplit : (readFields bytes).supplied = nodes ++ rest := hdrop
      have hcount : 0 + nodes.length = (readFields bytes).supplied.length := not_not.mp hcursor
      obtain rfl : rest = [] := by
        rw [hsplit, length_append] at hcount
        exact length_eq_zero_iff.mp (by omega)
      rw [hsplit, append_nil]
    refine ⟨paths, hall.symm ▸ hschedule, ?_⟩
    rw [hpaths hschedule] at hproof
    exact (Except.ok.inj hproof).symm
  · rintro ⟨paths, hschedule, rfl⟩
    refine ⟨_, _, (decodeWalk_iff hpre).mpr ⟨_, [], paths, (append_nil _).symm, rfl, rfl,
      hschedule⟩, ?_⟩
    rw [ite_error_eq_ok, hpaths hschedule, Nat.zero_add]
    exact ⟨not_not.mpr rfl, rfl⟩

/-- The tiles stand at their offsets. -/
theorem isAncestors_tileLevel {offsets : List ℕ} {tiles : List (List UInt8)}
    (h : offsets.length = tiles.length) :
    IsAncestors offsets 0 (tileLevel blake offsets tiles) := by
  have hrun : ∀ (l : List (ℕ × List UInt8)) (level : Level) (k : ℕ),
      k ∈ (l.foldl (fun level t => if level.contains t.1 then level
        else level.insert t.1 (v4TileSubtreeRoot blake t.2)) level).keys ↔
      k ∈ level.keys ∨ k ∈ l.map Prod.fst := by
    intro l
    induction l with
    | nil => simp
    | cons t l ih =>
      intro level k
      rw [foldl_cons, ih, map_cons, mem_cons, ← or_assoc]
      refine or_congr_left ?_
      split
      · next hthere =>
        have hmem := mem_keys_iff.mpr (contains_eq_true.mp hthere)
        exact (or_iff_left_of_imp fun heq => heq ▸ hmem).symm
      · rw [mem_keys_insert, or_comm]
  intro k
  rw [tileLevel, hrun, map_fst_zip h.le]
  constructor
  · rintro (hk | hk)
    · cases hk
    · exact ⟨k, hk, by rw [pow_zero, Nat.div_one]⟩
  · rintro ⟨off, hoff, rfl⟩
    rw [pow_zero, Nat.div_one]
    exact .inr hoff

/-- The encoder writes the nodes of a schedule. -/
theorem encodeV4Deduped_eq {v4 : PomProofV4} {nodes : List Bytes32} (hv4 : proof.v4 = some v4)
    (hlegacy : proof.legacyEmpty = true) (hsteps : proof.stepsV2 = none) (hv3 : proof.v3 = none)
    (htiles : v4.tiles.length = pomV4K) (hsizes : ∀ tile ∈ v4.tiles, tile.length = pomV4TileBytes)
    (hblob : v4NTiles nChunks.toNat ≠ 0)
    (hschedule : Scheduled blake seed nChunks v4.tiles nodes v4.merkle) :
    encodeV4Deduped blake proof seed nChunks
      = .ok (wireBytes v4.tier proof.powValue proof.finalState v4.tiles nodes) := by
  obtain ⟨hmerkle, hlengths⟩ := hschedule.paths_length
  have hcanonical : proof.isCanonicalV4 = true := by
    rw [PomProof.isCanonicalV4, hv4, hlegacy, hsteps, hv3]
    rfl
  have hshape : shapeCheck v4 = .ok () := by
    rw [shapeCheck, if_neg]
    · simpa using hsizes
    · rw [not_or, not_not, not_not]
      exact ⟨htiles, hmerkle.trans (length_v4OffsetChain _ _)⟩
  have hpaths : ¬ (v4.merkle.any fun m =>
      decide (m.length ≠ v4TilePathLen (v4TileLevelLen nChunks.toNat))) = true := by
    simpa using hlengths
  have hwalk := hschedule.encode hmerkle (map_id'' (fun _ => drop_zero) _)
    (isAncestors_tileLevel (by rw [length_v4OffsetChain, htiles])) []
  rw [encodeV4Deduped, hcanonical]
  simp only [hv4, hshape]
  rw [if_neg hblob, if_neg hpaths, hwalk]
  rfl

/-! ### Canonicity -/

/-- A decoded string is written back. -/
theorem encode_of_decode (h : decodeV4Deduped blake bytes seed nChunks = .ok proof) :
    encodeV4Deduped blake proof seed nChunks = .ok bytes := by
  obtain ⟨hsized, hblob, paths, hschedule, hproof⟩ := decodeV4Deduped_eq_ok.mp h
  have hlegacy : proof.legacyEmpty = true := by
    rw [hproof, legacyEmpty_iff]
    exact ⟨rfl, rfl, rfl, rfl⟩
  have hencode := encodeV4Deduped_eq (congrArg PomProof.v4 hproof) hlegacy
    (congrArg PomProof.stepsV2 hproof) (congrArg PomProof.v3 hproof)
    (by rw [readFields, length_map, length_range])
    (fun _ => hsized.tile_size) hblob hschedule
  rw [hencode, congrArg PomProof.powValue hproof, congrArg PomProof.finalState hproof,
    hsized.wireBytes_readFields]

/-! ### Accepted proofs -/

theorem verifyPomProofV4Container_eq_ok {finalHash : UInt64 → Bytes32} {rT target : Bytes32} :
    verifyPomProofV4Container blake finalHash seed proof nChunks rT target = .ok () ↔
      ∃ v4, proof.v4 = some v4 ∧ proof.legacyEmpty = true ∧ proof.stepsV2 = none ∧
        proof.v3 = none ∧ proof.tier = v4.tier ∧
        verifyPomProofV4 blake seed v4 rT nChunks = .ok proof.finalState ∧
        finalHash proof.finalState = proof.powValue ∧ leLeq proof.powValue target = true := by
  rw [verifyPomProofV4Container]
  cases hv4 : proof.v4 with
  | none => simp
  | some v4 =>
    simp only [ite_error_eq_ok, Option.some.injEq, exists_eq_left', not_or, Bool.or_eq_true,
      Bool.not_eq_true', Option.isSome_iff_ne_none]
    cases hverify : verifyPomProofV4 blake seed v4 rT nChunks with
    | error e => simp
    | ok derived =>
      simp only [ite_error_eq_ok, Except.ok.injEq, Bool.not_eq_false, not_not, and_true]
      constructor
      · rintro ⟨⟨⟨hlegacy, hsteps⟩, hv3⟩, htier, hstate, hpow, htarget⟩
        exact ⟨hlegacy, hsteps, hv3, htier, hstate.symm, hpow, hpow ▸ htarget⟩
      · rintro ⟨hlegacy, hsteps, hv3, htier, hstate, hpow, htarget⟩
        exact ⟨⟨⟨hlegacy, hsteps⟩, hv3⟩, htier, hstate.symm, hpow, hpow ▸ htarget⟩

/-- The tiles of an accepted proof are nodes of the tree. -/
theorem agrees_tileLevel {tree : List Bytes32} {offsets : List ℕ} {tiles : List (List UInt8)}
    (h : Forall₂ (fun off tile => tree[off]? = some (v4TileSubtreeRoot blake tile)) offsets tiles) :
    Agrees (tileLevel blake offsets tiles) tree := by
  have hempty : Agrees .empty tree := fun k v hk => (by cases hk)
  refine foldlRecOn _ _ (motive := (Agrees · tree)) hempty fun level hlevel t ht => ?_
  split
  · exact hlevel
  · exact hlevel.insert ((forall₂_iff_zip.mp h).2 ht)

variable {blob : List UInt8} {rT : Bytes32}

section

variable {proof : PomProofV4}
  (ha : Accepted blake seed proof rT (v4NTiles nChunks.toNat)) (hblob : IsBlob blob nChunks)
  (hroot : Merkle.root? (hashPair blake) ((chunksOf blob).map blake) = some rT)
  (hfree : CollisionFree blake (treeInputs blake (chunksOf blob) ++ proofInputs blake proof
    (v4OffsetChain seed proof.tiles (v4NTiles nChunks.toNat))))
include ha hblob hroot hfree

/-- **An accepted proof has a schedule**: its paths are those of the tree at the tile level. -/
theorem Accepted.scheduled :
    ∃ nodes, Scheduled blake seed nChunks proof.tiles nodes proof.merkle := by
  obtain ⟨htiles, hmerkle⟩ := ha.genuine hblob hroot hfree
  have hchain : v4OffsetChain seed proof.tiles (v4NTiles nChunks.toNat)
      = walkOffsets seed blob (v4NTiles nChunks.toNat) :=
    map_congr_left fun _ ht => ha.offset hblob hroot hfree (mem_range.mp ht)
  have hoffs := lt_of_mem_walkOffsets seed blob ha.nTiles_ne
  set tree := (Merkle.foldLevel (hashPair blake))^[tileSubtreeDepth] ((chunksOf blob).map blake)
  have hwidth : tree.length = v4TileLevelLen nChunks.toNat := by
    rw [Merkle.length_iterate_foldLevel, length_map, hblob.length_chunks]
    rfl
  have hagrees : Agrees (tileLevel blake (walkOffsets seed blob (v4NTiles nChunks.toNat))
      ((walkOffsets seed blob (v4NTiles nChunks.toNat)).map (blobTile blob))) tree := by
    refine agrees_tileLevel (forall₂_map_right_iff.mpr (forall₂_same.mpr fun off hoff => ?_))
    exact hblob.getElem?_tileLevel blake (hoffs off hoff)
  have hlt : ∀ off ∈ walkOffsets seed blob (v4NTiles nChunks.toNat), off / 2 ^ 0 < tree.length := by
    intro off hoff
    rw [pow_zero, Nat.div_one]
    exact (List.getElem?_eq_some_iff.mp (hblob.getElem?_tileLevel blake (hoffs off hoff))).1
  obtain ⟨nodes, hschedule⟩ := schedule_of_agrees blake hagrees
    (isAncestors_tileLevel (by rw [length_map])) hlt
  refine ⟨nodes, ?_⟩
  have hpaths : proof.merkle = (walkOffsets seed blob (v4NTiles nChunks.toNat)).map fun off =>
      (Merkle.path? (hashPair blake) tree (off / 2 ^ 0)).getD [] := by
    have h := congrArg (map (Option.getD · [])) hmerkle
    rw [map_map, map_map] at h
    simp only [pow_zero, Nat.div_one]
    exact (map_id'' (fun _ => rfl) _).symm.trans h
  rw [hwidth] at hschedule
  rw [Scheduled, hchain, hpaths, htiles]
  exact hschedule

/-- **An accepted proof travels**: it is written with the nodes of its schedule and read back. -/
theorem Accepted.wire {container : PomProof} (hv4 : container.v4 = some proof)
    (hlegacy : container.legacyEmpty = true) (hsteps : container.stepsV2 = none)
    (hv3 : container.v3 = none) (htier : container.tier = proof.tier) :
    ∃ nodes, Scheduled blake seed nChunks proof.tiles nodes proof.merkle ∧
      encodeV4Deduped blake container seed nChunks
        = .ok (wireBytes proof.tier container.powValue container.finalState proof.tiles nodes) ∧
      decodeV4Deduped blake
        (wireBytes proof.tier container.powValue container.finalState proof.tiles nodes) seed
        nChunks = .ok container := by
  obtain ⟨nodes, hschedule⟩ := ha.scheduled hblob hroot hfree
  have hcount : nodes.length < 2 ^ 32 := by
    have hle := hschedule.nodes_length_le
      (isAncestors_tileLevel (by rw [length_v4OffsetChain, ha.tiles_length]))
    rw [length_v4OffsetChain] at hle
    calc nodes.length ≤ v4TilePathLen (v4TileLevelLen nChunks.toNat) * pomV4K := hle
      _ ≤ 64 * pomV4K := Nat.mul_le_mul_right _ (v4TilePathLen_le nChunks)
      _ < 2 ^ 32 := by decide
  refine ⟨nodes, hschedule, encodeV4Deduped_eq hv4 hlegacy hsteps hv3 ha.tiles_length ha.sizes
    ha.nTiles_ne hschedule, ?_⟩
  obtain ⟨hsized, hfields⟩ := readFields_wireBytes proof.tier container.powValue
    container.finalState ha.tiles_length ha.sizes hcount
  rw [decodeV4Deduped_eq_ok, hfields]
  refine ⟨hsized, ha.nTiles_ne, proof.merkle, hschedule, ?_⟩
  obtain ⟨htrace, hinitial, hfinal, hopenings⟩ := (legacyEmpty_iff container).mp hlegacy
  cases container
  simp_all

end

/-! ### Exactness -/

/-- **The compact form is canonical**: a string that decodes is the encoding of the proof, so it
is the only one for it, and nothing may follow it. -/
theorem compact_canonical {bytes : List UInt8} {proof : PomProof}
    (h : decodeV4Deduped blake bytes seed nChunks = .ok proof) :
    encodeV4Deduped blake proof seed nChunks = .ok bytes ∧
      (∀ bytes', decodeV4Deduped blake bytes' seed nChunks = .ok proof → bytes' = bytes) ∧
      ∀ extra, extra ≠ [] →
        decodeV4Deduped blake (bytes ++ extra) seed nChunks = .error .malformed := by
  have hencode := encode_of_decode h
  refine ⟨hencode, fun bytes' h' => ?_, fun extra hextra => ?_⟩
  · exact Except.ok.inj ((encode_of_decode h').symm.trans hencode)
  · obtain ⟨⟨hheader, hlength⟩, -⟩ := decodeV4Deduped_eq_ok.mp h
    have hpos := length_pos_of_ne_nil hextra
    have hcount : slice (bytes ++ extra) 41 45 = slice bytes 41 45 := slice_append_left hheader
    rw [decodeV4Deduped, if_neg, if_pos]
    · rw [hcount, length_append]
      omega
    · rw [length_append, not_lt]
      exact Nat.le_add_right_of_le hheader

/-- The proof of the walk over two tiles in its container, with a value that meets every
target. -/
def twoTilesContainer : PomProof where
  tier := 0
  powValue := .zero
  finalState := fold64 (v4StateRoot sumDigest (v4Rewalk 1 (v4InitialState 7) twoTilesProof.tiles))
  v4 := some twoTilesProof

/-- Of the siblings on the paths of two tiles of three nodes, one is supplied: at the lowest level
each tile is the sibling of the other, above it their parent lacks its own. -/
theorem Schedule.length_nodes_of_two {offsets : List ℕ} {known : Level} {nodes : List Bytes32}
    {paths : List (List Bytes32)} (h : Schedule blake offsets 2 0 3 known nodes paths)
    (hknown : IsAncestors offsets 0 known) (hlt : ∀ off ∈ offsets, off < 2)
    (hmem : 0 ∈ offsets ∧ 1 ∈ offsets) : nodes.length = 1 := by
  have hkeys : ∀ {k}, k ∈ known.keys ↔ k < 2 := by
    intro k
    simp only [hknown k, pow_zero, Nat.div_one, exists_eq_right]
    refine ⟨hlt k, fun hk => ?_⟩
    obtain rfl | rfl : k = 0 ∨ k = 1 := by omega
    exacts [hmem.1, hmem.2]
  cases h with
  | @level _ _ _ _ next _ _ _ _ hvals _ hnext hrest =>
    have hlow : asked 3 known = [] := by
      refine eq_nil_iff_forall_not_mem.mpr fun k hk => ?_
      obtain ⟨hk, -, hmissing⟩ := mem_asked.mp hk
      have hlt := hkeys.mp hk
      have hsibling : k ^^^ 1 ∈ known.keys := hkeys.mpr (by rw [Merkle.xor_one_eq]; split <;> omega)
      obtain ⟨v, hv⟩ := mem_keys_iff.mp hsibling
      rw [hmissing] at hv
      cases hv
    cases hrest with
    | @level _ _ _ _ _ _ _ _ _ hvals' _ _ hrest =>
      cases hrest
      have hparent : ∀ {k}, k ∈ next.keys ↔ k = 0 := by
        intro k
        rw [hknown.next hnext k, zero_add, pow_one]
        refine ⟨?_, fun hk => ⟨0, hmem.1, hk.symm⟩⟩
        rintro ⟨off, hoff, rfl⟩
        exact Nat.div_eq_of_lt (hlt off hoff)
      have hhigh : asked 2 next ~ [0] := by
        refine (perm_ext_iff_of_nodup (nodup_asked 2 next) (nodup_singleton 0)).mpr fun k => ?_
        rw [mem_asked, hparent, mem_singleton]
        refine and_iff_left_of_imp ?_
        rintro rfl
        refine ⟨by decide, Option.eq_none_iff_forall_ne_some.mpr fun v hv => ?_⟩
        exact absurd (hparent.mp (mem_keys_iff.mpr ⟨v, hv⟩)) (by decide)
      rw [append_nil, length_append, hvals, hlow, hvals', hhigh.length_eq]
      rfl

/-- The proof of the walk over two tiles is accepted, has paths of two siblings each, and travels
with a single one. -/
theorem wire_twoTiles :
    ∃ rT bytes, Merkle.root? (hashPair sumDigest) ((chunksOf twoTiles).map sumDigest) = some rT ∧
      verifyPomProofV4Container sumDigest (fun _ => .zero) 7 twoTilesContainer 65 rT .zero
        = .ok () ∧
      (∀ path ∈ twoTilesProof.merkle, path.length = 2) ∧
      bytes.length = headerBytes + pomV4K * pomV4TileBytes + 32 ∧
      encodeV4Deduped sumDigest twoTilesContainer 7 65 = .ok bytes ∧
      decodeV4Deduped sumDigest bytes 7 65 = .ok twoTilesContainer := by
  obtain ⟨rT, hroot, ha, hfree⟩ := accepted_twoTiles
  have hverify : verifyPomProofV4 sumDigest 7 twoTilesProof rT 65
      = .ok twoTilesContainer.finalState := verifyPomProofV4_eq_ok.mpr ⟨ha, rfl⟩
  have hwire := @Accepted.wire _ _ 65 _ _ _ ha isBlob_twoTiles hroot hfree twoTilesContainer
  obtain ⟨nodes, hschedule, hencode, hdecode⟩ := hwire rfl (by decide) rfl rfl rfl
  have hplen : v4TilePathLen (v4TileLevelLen (65 : UInt64).toNat) = 2 := by decide +kernel
  have hpaths := hschedule.paths_length.2
  have hchain : v4OffsetChain 7 twoTilesProof.tiles (v4NTiles (65 : UInt64).toNat)
      = walkOffsets 7 twoTiles 2 := v4OffsetChain_walk 7 twoTiles 2
  have hcount : nodes.length = 1 := by
    rw [Scheduled, hplen, hchain] at hschedule
    refine hschedule.length_nodes_of_two (isAncestors_tileLevel ?_)
      (lt_of_mem_walkOffsets 7 twoTiles two_ne_zero) walkOffsets_twoTiles
    rw [twoTilesProof, walkProof, length_map]
  refine ⟨rT, _, hroot, ?_, hplen ▸ hpaths, ?_, hencode, hdecode⟩
  · exact verifyPomProofV4Container_eq_ok.mpr
      ⟨twoTilesProof, rfl, by decide, rfl, rfl, rfl, hverify, rfl, by decide⟩
  · have hblocks : ∀ b ∈ nodes.map Bytes32.bytes, b.length = 32 :=
      forall_mem_map.mpr fun n _ => n.size
    simp only [wireBytes, length_append, length_cons, Bytes32.size, length_leBytes,
      length_flatten_of_width ha.sizes, length_flatten_of_width hblocks, length_map, hcount,
      ha.tiles_length]
    rfl

/-- The compact form of a proof over two tiles, with a single sibling for 256 paths of two. -/
theorem compact_canonical_twoTiles :
    ∃ bytes, bytes.length = headerBytes + pomV4K * pomV4TileBytes + 32 ∧
      (∀ path ∈ twoTilesProof.merkle, path.length = 2) ∧
      decodeV4Deduped sumDigest bytes 7 65 = .ok twoTilesContainer ∧
      encodeV4Deduped sumDigest twoTilesContainer 7 65 = .ok bytes ∧
      (∀ bytes', decodeV4Deduped sumDigest bytes' 7 65 = .ok twoTilesContainer →
        bytes' = bytes) ∧
      ∀ extra, extra ≠ [] →
        decodeV4Deduped sumDigest (bytes ++ extra) 7 65 = .error .malformed := by
  obtain ⟨-, bytes, -, -, hpaths, hlength, -, hdecode⟩ := wire_twoTiles
  exact ⟨bytes, hlength, hpaths, hdecode, compact_canonical hdecode⟩

/-- **The compact form loses nothing** on accepted proofs: such a proof is encoded, and decoding
gives it back. -/
theorem compact_roundTrip {finalHash : UInt64 → Bytes32} {proof : PomProof} {target : Bytes32}
    (hblob : IsBlob blob nChunks)
    (hroot : Merkle.root? (hashPair blake) ((chunksOf blob).map blake) = some rT)
    (hfree : ∀ v4, proof.v4 = some v4 → CollisionFree blake (treeInputs blake (chunksOf blob) ++
      proofInputs blake v4 (v4OffsetChain seed v4.tiles (v4NTiles nChunks.toNat))))
    (hok : verifyPomProofV4Container blake finalHash seed proof nChunks rT target = .ok ()) :
    ∃ bytes, encodeV4Deduped blake proof seed nChunks = .ok bytes ∧
      decodeV4Deduped blake bytes seed nChunks = .ok proof := by
  obtain ⟨v4, hv4, hlegacy, hsteps, hv3, htier, hverify, -⟩ :=
    verifyPomProofV4Container_eq_ok.mp hok
  obtain ⟨ha, -⟩ := verifyPomProofV4_eq_ok.mp hverify
  obtain ⟨nodes, -, hencode, hdecode⟩ :=
    ha.wire hblob hroot (hfree v4 hv4) hv4 hlegacy hsteps hv3 htier
  exact ⟨_, hencode, hdecode⟩

/-- The round trip of a proof over two tiles: the siblings left out are rebuilt. -/
theorem compact_roundTrip_twoTiles :
    (∀ path ∈ twoTilesProof.merkle, path.length = 2) ∧
      ∃ bytes, bytes.length = headerBytes + pomV4K * pomV4TileBytes + 32 ∧
        encodeV4Deduped sumDigest twoTilesContainer 7 65 = .ok bytes ∧
        decodeV4Deduped sumDigest bytes 7 65 = .ok twoTilesContainer := by
  obtain ⟨rT, bytes, hroot, hok, hpaths, hlength, hencode, -⟩ := wire_twoTiles
  obtain ⟨-, -, -, hfree⟩ := accepted_twoTiles
  obtain ⟨bytes', hencode', hdecode⟩ := compact_roundTrip isBlob_twoTiles hroot
    (fun v4 hv4 => by cases hv4; exact hfree) hok
  obtain rfl := Except.ok.inj (hencode.symm.trans hencode')
  exact ⟨hpaths, bytes, hlength, hencode, hdecode⟩

end Codec

end Pom

end KeryxNode
