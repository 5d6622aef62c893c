import KeryxNode.PomSound

/-!
# The H4 Re-Walk

The verifier of the H4 era re-walks the chunks of a proof: the state before a step says at which
offset its chunk has to be opened, the chunk gives the next state. Against the root of a list of
chunks it accepts the walk over that list and nothing else, where the digest does not collide on
what is hashed.

## Main results

* `pomV2_accepts_iff`: the proofs the H4 verifier accepts.
-/

namespace KeryxNode

open List Option

namespace Pom

open ByteCodec Body

/-! ### Walks over chunks -/

/-- The walk over a list of chunks: the offsets it reads and its last state. -/
def chunkWalk (walkV2 : Bool) (chunks : List Bytes32) : ℕ → UInt64 → List ℕ × UInt64
  | 0, state => ([], state)
  | k + 1, state =>
    let off := state.toNat % chunks.length
    let rest := chunkWalk walkV2 chunks k
      (transition walkV2 state (chunkToWords (chunks.getD off .zero)))
    (off :: rest.1, rest.2)

/-- The digests of chunks. -/
def leaves (blake : List UInt8 → Bytes32) (chunks : List Bytes32) : List Bytes32 :=
  (chunks.map Bytes32.bytes).map blake

/-- A step has the chunk at an offset and its path. -/
def PomStep.Genuine (blake : List UInt8 → Bytes32) (chunks : List Bytes32) (step : PomStep)
    (off : ℕ) : Prop :=
  chunks[off]? = some step.chunk ∧
    Merkle.path? (hashPair blake) (leaves blake chunks) off = some step.weightPath

/-- The strings hashed while the steps of a proof are checked. -/
def stepInputs (blake : List UInt8 → Bytes32) (checks : List (Bytes32 × ℕ × List Bytes32)) :
    List (List UInt8) :=
  checks.flatMap fun c => openingInputs blake c.1.bytes c.2.1 c.2.2

section Steps

variable {blake : List UInt8 → Bytes32} {chunks : List Bytes32} {nChunks : UInt64} {rT : Bytes32}
  {walkV2 : Bool}

theorem toNat_offset (hlen : chunks.length = nChunks.toNat) (state : UInt64) :
    (state % nChunks).toNat = state.toNat % chunks.length := by
  rw [hlen, UInt64.toNat_mod]

/-- A checked opening is genuine. -/
theorem step_sound (hroot : Merkle.root? (hashPair blake) (leaves blake chunks) = some rT)
    (hpos : 0 < chunks.length) {step : PomStep} {state : ℕ}
    (hfree : CollisionFree blake (treeInputs blake (chunks.map Bytes32.bytes) ++
      openingInputs blake step.chunk.bytes (state % chunks.length) step.weightPath))
    (hok : verifyMerkle blake (blake step.chunk.bytes) (state % chunks.length) step.weightPath rT
      = true) : step.Genuine blake chunks (state % chunks.length) := by
  rw [verifyMerkle, Bool.and_eq_true, decide_eq_true_eq, decide_eq_true_eq] at hok
  have hsizes : ∀ c ∈ chunks.map Bytes32.bytes, c.length = 32 := by
    intro c hc
    obtain ⟨b, -, rfl⟩ := mem_map.mp hc
    exact b.size
  obtain ⟨hfound, hpath⟩ := opening_sound hsizes step.chunk.size hroot hok.2
    (by rw [length_map]; exact Nat.mod_lt state hpos) hfree
  refine ⟨?_, hpath⟩
  rw [getElem?_map] at hfound
  obtain ⟨b, hb, heq⟩ := map_eq_some_iff.mp hfound
  rw [hb, Bytes32.ext heq]

/-- A genuine step is accepted. -/
theorem step_complete (hlen : chunks.length = nChunks.toNat)
    (hroot : Merkle.root? (hashPair blake) (leaves blake chunks) = some rT) {step : PomStep}
    {off : ℕ} (h : step.Genuine blake chunks off) :
    verifyMerkle blake (blake step.chunk.bytes) off step.weightPath rT = true := by
  have hleaf : (leaves blake chunks)[off]? = some (blake step.chunk.bytes) := by
    rw [leaves, getElem?_map, getElem?_map, h.1]
    rfl
  obtain ⟨path, r, hpath, hlength, hr, hclimb, -⟩ := Merkle.path_climbs (hashPair blake) hleaf
  obtain rfl := mem_unique h.2 hpath
  obtain rfl := mem_unique hroot hr
  have hle : step.weightPath.length ≤ 64 := by
    rw [hlength, leaves, length_map, length_map, hlen]
    exact pathLen_le_of_lt nChunks.toNat_lt.le
  rw [verifyMerkle, hclimb, decide_eq_true hle, decide_eq_true rfl]
  rfl

/-- **The re-walk**: all openings of a list of steps are accepted exactly if the steps are those of
the walk over the chunks, and then both end in the same state. -/
theorem rewalk_iff (hlen : chunks.length = nChunks.toNat) (hpos : 0 < chunks.length)
    (hroot : Merkle.root? (hashPair blake) (leaves blake chunks) = some rT) (steps : List PomStep)
    (state : UInt64)
    (hfree : CollisionFree blake (treeInputs blake (chunks.map Bytes32.bytes) ++
      stepInputs blake (rewalk walkV2 nChunks state steps).1)) :
    ((∀ c ∈ (rewalk walkV2 nChunks state steps).1,
        verifyMerkle blake (blake c.1.bytes) c.2.1 c.2.2 rT = true) ↔
      List.Forall₂ (PomStep.Genuine blake chunks) steps
        (chunkWalk walkV2 chunks steps.length state).1) ∧
      (List.Forall₂ (PomStep.Genuine blake chunks) steps
          (chunkWalk walkV2 chunks steps.length state).1 →
        (rewalk walkV2 nChunks state steps).2
          = (chunkWalk walkV2 chunks steps.length state).2) := by
  induction steps generalizing state with
  | nil => exact ⟨⟨fun _ => .nil, fun _ _ hc => (by cases hc)⟩, fun _ => rfl⟩
  | cons step steps ih =>
    simp only [rewalk, length_cons, chunkWalk, forall₂_cons, forall_mem_cons,
      toNat_offset hlen] at hfree ⊢
    set off := state.toNat % chunks.length with hoff
    -- With the genuine chunk both walks go on from the same state.
    have hstate : step.Genuine blake chunks off →
        chunks.getD off .zero = step.chunk := by
      intro h
      rw [getD_eq_getElem?_getD, h.1]
      rfl
    have hhead : step.Genuine blake chunks off ↔
        verifyMerkle blake (blake step.chunk.bytes) off step.weightPath rT = true := by
      refine ⟨step_complete hlen hroot, step_sound hroot hpos (hfree.mono ?_)⟩
      refine append_subset.mpr ⟨subset_append_left _ _, fun x hx => ?_⟩
      exact mem_append_right _ (mem_append_left _ hx)
    obtain ⟨hrest, hlast⟩ := ih (transition walkV2 state (chunkToWords step.chunk)) (hfree.mono
      (append_subset.mpr ⟨subset_append_left _ _, fun x hx =>
        mem_append_right _ (mem_append_right _ hx)⟩))
    constructor
    · constructor
      · rintro ⟨hok, hoks⟩
        have hgen := hhead.mpr hok
        rw [hstate hgen]
        exact ⟨hgen, hrest.mp hoks⟩
      · rintro ⟨hgen, hgens⟩
        rw [hstate hgen] at hgens
        exact ⟨hhead.mp hgen, hrest.mpr hgens⟩
    · rintro ⟨hgen, hgens⟩
      rw [hstate hgen] at hgens ⊢
      exact hlast hgens

/-- The H4 verifier accepts exactly when all its checks pass. -/
theorem verifyPomProofV2_eq_ok {finalHash : UInt64 → Bytes32} {seed : UInt64} {proof : PomProof}
    {k : UInt32} {target : Bytes32} (hn : nChunks ≠ 0) :
    verifyPomProofV2 blake finalHash seed proof nChunks k rT target walkV2 = some (.ok ()) ↔
      ∃ steps, proof.stepsV2 = some steps ∧ steps.length = k.toNat ∧ proof.legacyEmpty = true ∧
        (∀ c ∈ (rewalk walkV2 nChunks seed steps).1,
          verifyMerkle blake (blake c.1.bytes) c.2.1 c.2.2 rT = true) ∧
        (rewalk walkV2 nChunks seed steps).2 = proof.finalState ∧
        finalHash proof.finalState = proof.powValue ∧ leLeq proof.powValue target = true := by
  cases hsteps : proof.stepsV2 with
  | none => simp [verifyPomProofV2, hsteps]
  | some steps =>
    have hopen : ¬ ((rewalk walkV2 nChunks seed steps).1.any fun c =>
        !verifyMerkle blake (blake c.1.bytes) c.2.1 c.2.2 rT) = true ↔
        ∀ c ∈ (rewalk walkV2 nChunks seed steps).1,
          verifyMerkle blake (blake c.1.bytes) c.2.1 c.2.2 rT = true := by simp
    simp only [verifyPomProofV2, hsteps, ite_some_error_eq_ok, hn, and_false, if_false, hopen,
      Bool.not_eq_true, Bool.not_eq_false', not_not, some.injEq, exists_eq_left', and_true]
    constructor
    · rintro ⟨hlen, hlegacy, hop, hstate, hpow, htarget⟩
      rw [hstate] at hpow htarget
      exact ⟨hlen, hlegacy, hop, hstate, hpow, hpow ▸ htarget⟩
    · rintro ⟨hlen, hlegacy, hop, hstate, hpow, htarget⟩
      rw [hstate]
      exact ⟨hlen, hlegacy, hop, rfl, hpow, hpow.symm ▸ htarget⟩

/-- **Soundness and completeness of the H4 verifier**: against the root of a list of chunks it
accepts exactly the proofs whose trace fields are empty, whose steps are the chunks of the walk
with their paths, whose final state is the walk's, and whose value is the hash of that state and
at most the target. -/
theorem pomV2_accepts_iff {finalHash : UInt64 → Bytes32} {seed : UInt64} {proof : PomProof}
    {k : UInt32} {target : Bytes32} (hlen : chunks.length = nChunks.toNat)
    (hroot : Merkle.root? (hashPair blake) (leaves blake chunks) = some rT)
    (hfree : CollisionFree blake (treeInputs blake (chunks.map Bytes32.bytes) ++
      stepInputs blake (rewalk walkV2 nChunks seed (proof.stepsV2.getD [])).1)) :
    verifyPomProofV2 blake finalHash seed proof nChunks k rT target walkV2 = some (.ok ()) ↔
      (proof.traceRoot = .zero ∧ proof.initialTracePath = [] ∧ proof.finalTracePath = [] ∧
        proof.openings = []) ∧
      (∃ steps, proof.stepsV2 = some steps ∧ steps.length = k.toNat ∧
        List.Forall₂ (PomStep.Genuine blake chunks) steps
          (chunkWalk walkV2 chunks k.toNat seed).1) ∧
      proof.finalState = (chunkWalk walkV2 chunks k.toNat seed).2 ∧
      proof.powValue = finalHash proof.finalState ∧
      leValue proof.powValue.bytes ≤ leValue target.bytes := by
  have hpos : 0 < chunks.length := by
    refine length_pos_iff.mpr fun hnil => ?_
    rw [hnil, leaves, Merkle.root?_of_le (by simp)] at hroot
    cases hroot
  have hn : nChunks ≠ 0 := by
    rintro rfl
    rw [hlen] at hpos
    exact absurd hpos (Nat.lt_irrefl 0)
  rw [verifyPomProofV2_eq_ok hn, ← legacyEmpty_iff, ← leLeq_iff]
  constructor
  · rintro ⟨steps, hsteps, hk, hlegacy, hopen, hstate, hpow, htarget⟩
    rw [hsteps] at hfree
    obtain ⟨hiff, hlast⟩ := rewalk_iff hlen hpos hroot steps seed hfree
    have hgenuine := hiff.mp hopen
    rw [hlast hgenuine, hk] at hstate
    rw [hk] at hgenuine
    exact ⟨hlegacy, ⟨steps, hsteps, hk, hgenuine⟩, hstate.symm, hpow.symm, htarget⟩
  · rintro ⟨hlegacy, ⟨steps, hsteps, hk, hgenuine⟩, hstate, hpow, htarget⟩
    rw [hsteps] at hfree
    obtain ⟨hiff, hlast⟩ := rewalk_iff hlen hpos hroot steps seed hfree
    rw [hk] at hiff hlast
    exact ⟨steps, hsteps, hk, hlegacy, hiff.mpr hgenuine, (hlast hgenuine).trans hstate.symm,
      hpow.symm, htarget⟩

/-- Two chunks, one of zeros. -/
def twoChunks : List Bytes32 :=
  [.zero, ⟨List.replicate 32 2, length_replicate⟩]

/-- The step that reads one of two chunks: the digest of the other is its path. -/
def twoChunksStep (off : ℕ) : PomStep :=
  ⟨twoChunks.getD off .zero, [sumDigest (twoChunks.getD (1 - off) .zero).bytes]⟩

/-- Four steps over two chunks, with a value of zero. -/
def twoChunksProof : PomProof :=
  { tier := 0
    powValue := .zero
    finalState := (chunkWalk true twoChunks 4 7).2
    stepsV2 := some ([1, 1, 1, 0].map twoChunksStep) }

/-- The walk over two chunks reads both. -/
theorem pomV2_accepts_twoChunks :
    (chunkWalk true twoChunks 4 7).1 = [1, 1, 1, 0] ∧
      ∃ rT, Merkle.root? (hashPair sumDigest) (leaves sumDigest twoChunks) = some rT ∧
        verifyPomProofV2 sumDigest (fun _ => .zero) 7 twoChunksProof 2 4 rT .zero true
          = some (.ok ()) := by
  have hwalk : (chunkWalk true twoChunks 4 7).1 = [1, 1, 1, 0] := by decide +kernel
  have hroot : Merkle.root? (hashPair sumDigest) (leaves sumDigest twoChunks)
      = some (hashPair sumDigest (sumDigest (List.replicate 32 0), sumDigest (List.replicate 32 2)))
      := by decide +kernel
  have hfree : CollisionFree sumDigest (treeInputs sumDigest (twoChunks.map Bytes32.bytes) ++
      stepInputs sumDigest (rewalk true 2 7 (twoChunksProof.stepsV2.getD [])).1) := by
    decide +kernel
  refine ⟨hwalk, _, hroot, (pomV2_accepts_iff rfl hroot hfree).mpr
    ⟨⟨rfl, rfl, rfl, rfl⟩, ⟨_, rfl, rfl, ?_⟩, rfl, rfl, le_rfl⟩⟩
  have hgenuine : ∀ off ∈ [1, 1, 1, 0], (twoChunksStep off).Genuine sumDigest twoChunks off := by
    simp only [PomStep.Genuine]
    decide +kernel
  rw [show (4 : UInt32).toNat = 4 from rfl, hwalk]
  exact forall₂_map_left_iff.mpr (forall₂_same.mpr hgenuine)

end Steps

end Pom

end KeryxNode
