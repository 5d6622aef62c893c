import KeryxNode.BodyRules
import KeryxNode.ByteCodec
import KeryxNode.MerkleTree

/-!
# Possession Proofs

A possession proof shows that its prover held the weights of a model: a walk over the chunks of
the weights, each opened under the Merkle root of the tier. This module has the container that
travels with a block, the hashes and mixers all eras share, and the re-walk of the H4 era
(`verify_pom_proof_v2` of `consensus/core/src/pom.rs`). The digest `blake` is a parameter, an
arbitrary function from byte strings to 32 bytes.

A division by a chunk count of zero stops the program: such a run has no result.
-/

namespace KeryxNode

open List Merkle

namespace Pom

open ByteCodec Body

/-! ### Byte arrays -/

/-- An array of 32 bytes. -/
structure Bytes32 where
  bytes : List UInt8
  size : bytes.length = 32
  deriving DecidableEq

namespace Bytes32

/-- The array of zeros. -/
def zero : Bytes32 :=
  ⟨replicate 32 0, length_replicate⟩

instance : Inhabited Bytes32 := ⟨zero⟩

@[ext] theorem ext {a b : Bytes32} (h : a.bytes = b.bytes) : a = b := by
  obtain ⟨bytes, size⟩ := a
  obtain ⟨bytes', size'⟩ := b
  obtain rfl : bytes = bytes' := h
  rfl

end Bytes32

/-- Little-endian comparison of 32-byte numbers, from the last byte down. -/
def leLeq (a b : Bytes32) : Bool :=
  go a.bytes.reverse b.bytes.reverse
where
  go : List UInt8 → List UInt8 → Bool
    | x :: xs, y :: ys => if x < y then true else if y < x then false else go xs ys
    | _, _ => true

/-! ### Hashes and mixers -/

/-- The finalizer every walk mixes with. -/
def mix64 (x : UInt64) : UInt64 :=
  let x := x ^^^ (x >>> 30)
  let x := x * 0xbf58476d1ce4e5b9
  let x := x ^^^ (x >>> 27)
  let x := x * 0x94d049bb133111eb
  x ^^^ (x >>> 31)

/-- The four little-endian words of a chunk. -/
def chunkToWords (c : Bytes32) : List UInt64 :=
  (range 4).map fun i => UInt64.ofNat (leValue (slice c.bytes (i * 8) (i * 8 + 8)))

/-- The transition before H5: the words are folded into one before they are mixed. -/
def transitionV1 (state : UInt64) (chunk : List UInt64) : UInt64 :=
  mix64 (chunk.foldl (fun h w => h ^^^ w) state)

/-- The transition from H5 on: every word is mixed in. -/
def transitionV2 (state : UInt64) (chunk : List UInt64) : UInt64 :=
  chunk.foldl (fun h w => mix64 (h ^^^ w)) state

/-- The bytes of a pair of nodes. -/
def pairBytes (p : Bytes32 × Bytes32) : List UInt8 :=
  p.1.bytes ++ p.2.bytes

theorem length_pairBytes (p : Bytes32 × Bytes32) : (pairBytes p).length = 64 := by
  rw [pairBytes, length_append, p.1.size, p.2.size]

theorem pairBytes_inj {p q : Bytes32 × Bytes32} (h : pairBytes p = pairBytes q) : p = q := by
  obtain ⟨h₁, h₂⟩ := append_inj h (p.1.size.trans q.1.size.symm)
  exact Prod.ext (Bytes32.ext h₁) (Bytes32.ext h₂)

section Hash

variable (blake : List UInt8 → Bytes32)

/-- The hash of a pair of nodes. -/
def hashPair (p : Bytes32 × Bytes32) : Bytes32 :=
  blake (pairBytes p)

/-- Checks an opening. Paths longer than an index has bits are refused. -/
def verifyMerkle (leaf : Bytes32) (index : ℕ) (path : List Bytes32) (root : Bytes32) : Bool :=
  decide (path.length ≤ 64) && decide (climb (hashPair blake) leaf index path = root)

end Hash

/-! ### Containers -/

/-- One opened step of the walk before H4. -/
structure PomOpening where
  stateBefore : UInt64
  chunk : Bytes32
  weightPath : List Bytes32
  tracePathBefore : List Bytes32
  tracePathAfter : List Bytes32
  deriving DecidableEq

/-- One step of the H4 walk: the chunk it read and the path of the chunk. -/
structure PomStep where
  chunk : Bytes32
  weightPath : List Bytes32
  deriving DecidableEq

/-- The witness of the H6 walk, kept as the bytes of its encoding. -/
structure PomProofV3 where
  encoded : List UInt8
  deriving DecidableEq

/-- The witness of the v4 walk: the tiles in step order and the path of each. -/
structure PomProofV4 where
  tier : UInt8
  tiles : List (List UInt8)
  merkle : List (List Bytes32)
  deriving DecidableEq

/-- The possession witness of a block. -/
structure PomProof where
  tier : UInt8
  traceRoot : Bytes32 := .zero
  powValue : Bytes32
  finalState : UInt64
  initialTracePath : List Bytes32 := []
  finalTracePath : List Bytes32 := []
  openings : List PomOpening := []
  stepsV2 : Option (List PomStep) := none
  v3 : Option PomProofV3 := none
  v4 : Option PomProofV4 := none
  deriving DecidableEq

/-- The trace fields of the first era are empty. -/
def PomProof.legacyEmpty (p : PomProof) : Bool :=
  decide (p.traceRoot = .zero) && p.initialTracePath.isEmpty && p.finalTracePath.isEmpty &&
    p.openings.isEmpty

theorem legacyEmpty_iff (proof : PomProof) :
    proof.legacyEmpty = true ↔ proof.traceRoot = .zero ∧ proof.initialTracePath = [] ∧
      proof.finalTracePath = [] ∧ proof.openings = [] := by
  simp only [PomProof.legacyEmpty, Bool.and_eq_true, decide_eq_true_eq, List.isEmpty_iff, and_assoc]

/-! ### The re-walk of the H4 era -/

/-- The transition of the era. -/
def transition (walkV2 : Bool) : UInt64 → List UInt64 → UInt64 :=
  if walkV2 then transitionV2 else transitionV1

/-- The re-walk over the chunks of a proof: each chunk with the offset it has to be at and its
path, and the last state. -/
def rewalk (walkV2 : Bool) (nChunks : UInt64) :
    UInt64 → List PomStep → List (Bytes32 × ℕ × List Bytes32) × UInt64
  | state, [] => ([], state)
  | state, step :: steps =>
    let rest := rewalk walkV2 nChunks (transition walkV2 state (chunkToWords step.chunk)) steps
    ((step.chunk, (state % nChunks).toNat, step.weightPath) :: rest.1, rest.2)

section Verify

variable (blake : List UInt8 → Bytes32)

/-- The H4 verifier; no result if it divides by a chunk count of zero. -/
def verifyPomProofV2 (finalHash : UInt64 → Bytes32) (seed : UInt64) (proof : PomProof)
    (nChunks : UInt64) (k : UInt32) (rT target : Bytes32) (walkV2 : Bool) :
    Option (Except PomVerifyError Unit) :=
  match proof.stepsV2 with
  | none => some (.error .missingSteps)
  | some steps =>
    if steps.length ≠ k.toNat then some (.error .wrongStepCount)
    else if !proof.legacyEmpty then some (.error .nonCanonicalLegacyFields)
    else if steps ≠ [] ∧ nChunks = 0 then none
    else
      let walked := rewalk walkV2 nChunks seed steps
      if walked.1.any fun c => !verifyMerkle blake (blake c.1.bytes) c.2.1 c.2.2 rT then
        some (.error .badWeightPath)
      else if walked.2 ≠ proof.finalState then some (.error .finalStateMismatch)
      else if finalHash walked.2 ≠ proof.powValue then some (.error .powValueMismatch)
      else if !leLeq (finalHash walked.2) target then some (.error .targetNotMet)
      else some (.ok ())

end Verify

/-! ### The target comparison -/

/-- A last byte is the highest digit. -/
theorem leValue_concat (l : List UInt8) (b : UInt8) :
    leValue (l ++ [b]) = leValue l + 256 ^ l.length * b.toNat := by
  rw [leValue_append, leValue, leValue, Nat.add_zero]

/-- The comparison from the last byte down decides by the highest digit that differs. -/
theorem leLeq_go_iff (l r : List UInt8) (h : l.length = r.length) :
    leLeq.go l.reverse r.reverse = true ↔ leValue l ≤ leValue r := by
  induction l using reverseRecOn generalizing r with
  | nil =>
    obtain rfl : r = [] := length_eq_zero_iff.mp h.symm
    exact ⟨fun _ => le_rfl, fun _ => rfl⟩
  | append_singleton l a ih =>
    obtain ⟨r, b, rfl⟩ := (eq_nil_or_concat' r).resolve_left (by
      rintro rfl
      simp at h)
    have hlen : l.length = r.length := by simpa using h
    have hl := leValue_lt l
    have hr := leValue_lt r
    rw [hlen] at hl
    rw [reverse_concat, reverse_concat, leLeq.go, leValue_concat, leValue_concat, hlen]
    set w := 256 ^ r.length
    rcases lt_trichotomy a.toNat b.toNat with hab | hab | hab
    · have hstep : w * a.toNat + w ≤ w * b.toNat :=
        (Nat.mul_succ w a.toNat).symm.trans_le (Nat.mul_le_mul_left w hab)
      rw [if_pos (UInt8.lt_iff_toNat_lt.mpr hab)]
      simp only [true_iff]
      omega
    · obtain rfl := UInt8.toNat_inj.mp hab
      rw [if_neg (UInt8.lt_irrefl a), if_neg (UInt8.lt_irrefl a), ih r hlen]
      omega
    · have hstep : w * b.toNat + w ≤ w * a.toNat :=
        (Nat.mul_succ w b.toNat).symm.trans_le (Nat.mul_le_mul_left w hab)
      rw [if_neg fun hlt => hab.not_gt (UInt8.lt_iff_toNat_lt.mp hlt),
        if_pos (UInt8.lt_iff_toNat_lt.mpr hab)]
      simp only [Bool.false_eq_true, false_iff]
      omega

/-- **The target comparison** is that of the little-endian numbers. -/
theorem leLeq_iff (a b : Bytes32) : leLeq a b = true ↔ leValue a.bytes ≤ leValue b.bytes :=
  leLeq_go_iff a.bytes b.bytes (a.size.trans b.size.symm)

/-! ### Collisions -/

/-- The digest does not collide on these byte strings. -/
def CollisionFree (blake : List UInt8 → Bytes32) (inputs : List (List UInt8)) : Prop :=
  ∀ x ∈ inputs, ∀ y ∈ inputs, blake x = blake y → x = y

instance (blake : List UInt8 → Bytes32) (inputs : List (List UInt8)) :
    Decidable (CollisionFree blake inputs) :=
  inferInstanceAs (Decidable (∀ x ∈ inputs, ∀ y ∈ inputs, blake x = blake y → x = y))

/-- The strings hashed for the root of a list of chunks. -/
def treeInputs (blake : List UInt8 → Bytes32) (chunks : List (List UInt8)) : List (List UInt8) :=
  chunks ++ (treePairs (hashPair blake) (chunks.map blake)).map pairBytes

/-- The strings hashed while an opening of a chunk is checked. -/
def openingInputs (blake : List UInt8 → Bytes32) (chunk : List UInt8) (idx : ℕ)
    (path : List Bytes32) : List (List UInt8) :=
  chunk :: (climbPairs (hashPair blake) (blake chunk) idx path).map pairBytes

/-- **Chunk openings are binding**: where the digest does not collide on what is hashed, an
opening of a 32-byte chunk that reaches the root of a list of 32-byte chunks opens the chunk at
its index, along its path. -/
theorem opening_sound {blake : List UInt8 → Bytes32} {chunks : List (List UInt8)}
    {chunk : List UInt8} {idx : ℕ} {path : List Bytes32} {r : Bytes32}
    (hsize : ∀ c ∈ chunks, c.length = 32) (hchunk : chunk.length = 32)
    (hroot : root? (hashPair blake) (chunks.map blake) = some r)
    (hclimb : climb (hashPair blake) (blake chunk) idx path = r)
    (hidx : idx < chunks.length)
    (hfree : CollisionFree blake (treeInputs blake chunks ++ openingInputs blake chunk idx path)) :
    chunks[idx]? = some chunk ∧
      path? (hashPair blake) (chunks.map blake) idx = some path := by
  have htree : ∀ q ∈ treePairs (hashPair blake) (chunks.map blake),
      pairBytes q ∈ treeInputs blake chunks ++ openingInputs blake chunk idx path := fun q hq =>
    mem_append_left _ (mem_append_right _ (mem_map_of_mem hq))
  have hopen : ∀ p ∈ climbPairs (hashPair blake) (blake chunk) idx path,
      pairBytes p ∈ treeInputs blake chunks ++ openingInputs blake chunk idx path := fun p hp =>
    mem_append_right _ (mem_cons_of_mem _ (mem_map_of_mem hp))
  have hself : chunk ∈ treeInputs blake chunks ++ openingInputs blake chunk idx path :=
    mem_append_right _ mem_cons_self
  have hleaf : ∀ c ∈ chunks,
      c ∈ treeInputs blake chunks ++ openingInputs blake chunk idx path := fun c hc =>
    mem_append_left _ (mem_append_left _ hc)
  -- Leaves and nodes are hashes of strings of different lengths.
  have hbind : Merkle.Binding (hashPair blake) (chunks.map blake) (blake chunk) idx path :=
    { pairs := fun p hp q hq heq => pairBytes_inj (hfree _ (hopen p hp) _ (htree q hq) heq)
      node_ne := fun q hq heq => by
        have := congrArg length (hfree _ (htree q hq) _ hself heq)
        rw [length_pairBytes] at this
        omega
      leaf_ne := fun p hp hmem => by
        obtain ⟨c, hc, heq⟩ := mem_map.mp hmem
        have := congrArg length (hfree _ (hleaf c hc) _ (hopen p hp) heq)
        rw [length_pairBytes, hsize c hc] at this
        omega }
  obtain ⟨hfound, hpath⟩ := hbind.opening hroot hclimb (by rwa [length_map])
  refine ⟨?_, hpath⟩
  rw [getElem?_map] at hfound
  obtain ⟨c, hc, heq⟩ := Option.map_eq_some_iff.mp hfound
  rw [hc, hfree c (hleaf c (mem_of_getElem? hc)) chunk hself heq]

end Pom

end KeryxNode
