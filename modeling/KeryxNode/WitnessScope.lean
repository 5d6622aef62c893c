import KeryxNode.BodyProcessor

/-!
# A Valid Block under Arbitrary Witnesses

The witness of a block travels outside its hash, so a bad witness must not condemn the block. The
source keeps a list of errors that are about the witness (`witnessScopedError`) and does not mark
a block for those past the gate. One error of the possession check is not on the list: the one of
a witness whose tier is not the tier the header commits to, which no check before it needs any
work to pass. A block delivered with such a witness is marked invalid for good.

The results follow one block through a run of the body stage. Its header and transactions pass
their checks; what it is delivered with is arbitrary.

## Main results

* `valid_block_survives`: without deliveries of a forged tier the block is never marked, and is
  accepted later with a witness that verifies.
* `forged_tier_poisons`: a delivery of a forged tier marks the block.
-/

namespace KeryxNode

open Option List OrdMap

namespace Body

section Following

variable {R : Rules} {hd : Header} {txs : List Transaction}

/-- Some witness makes the validation of the body succeed. -/
def Rules.Provable (R : Rules) (hd : Header) (txs : List Transaction) : Prop :=
  ∃ hasBody p pomTier mass,
    R.validateBody hasBody ⟨hd, txs, some p, pomTier⟩ false false = .ok mass

/-- The checks that do not read the witness pass. -/
theorem Rules.Provable.checks (h : R.Provable hd txs) :
    (∃ mass, R.checksWithoutWitness hd txs = .ok mass) ∧ R.checksInContext hd txs = .ok () := by
  obtain ⟨hasBody, p, pomTier, mass, hv⟩ := h
  obtain ⟨m, hiso, hctx⟩ := bind_eq_ok hv
  obtain ⟨m', hchecks, -⟩ := bind_eq_ok hiso
  obtain ⟨⟨⟩, hparents, hctx⟩ := bind_eq_ok hctx
  obtain ⟨u, hcontext, -⟩ := bind_eq_ok hctx
  exact ⟨⟨m', hchecks⟩, hcontext⟩

/-- **The validation of a provable block** depends on its witness and on its parents only. -/
theorem Rules.Provable.validateBody (h : R.Provable hd txs) (hasBody : Hash → Bool) (b : Block)
    (hheader : b.header = hd) (htxs : b.transactions = txs) (skip : Bool) :
    ∃ mass, R.validateBody hasBody b false skip
      = ((if skip then .ok () else R.checkPomProof hd b.pomProof) >>= fun _ =>
          Rules.checkParentBodiesExist hasBody hd >>= fun _ => .ok mass) := by
  obtain ⟨⟨mass, hchecks⟩, hcontext⟩ := h.checks
  refine ⟨mass, ?_⟩
  rw [Rules.validateBody, Rules.validateBodyInIsolation, hheader, htxs, hchecks]
  cases skip with
  | true =>
    cases hp : Rules.checkParentBodiesExist hasBody hd with
    | error e => rfl
    | ok u => simp only [hcontext]; rfl
  | false =>
    cases hw : R.checkPomProof hd b.pomProof with
    | error e => rfl
    | ok u =>
      cases hp : Rules.checkParentBodiesExist hasBody hd with
      | error e => rfl
      | ok u => simp only [hcontext]; rfl

/-! ### What the steps preserve -/

/-- The block is not marked, the cache holds failed witnesses of it only, and it has no witness
before it has a body. -/
structure Following (R : Rules) (hd : Header) (failed : Hash → Prop) (n : Node) : Prop where
  wf : n.WF
  status : ∃ s, n.statuses.get? hd.hash = some s ∧ s ≠ .invalid
  failed : ∀ d, n.badWitnesses.contains hd.hash d = true → failed d
  naked : n.statuses.get? hd.hash = some .headerOnly → n.pomProofs.get? hd.hash = none

/-- The step does not relay the block with a witness of a forged tier. Its other witnesses are
arbitrary; `failed` has the digests of those that do not verify. -/
def Rules.Harmless (R : Rules) (hd : Header) (txs : List Transaction) (failed : Hash → Prop) :
    Step → Prop
  | .deliver b ibd => b.header.hash = hd.hash → b.header = hd ∧ b.transactions = txs ∧
      ∀ p ∈ b.pomProof, (ibd = false → ¬ R.ForgesTier hd p) ∧
        (R.checkPomProof hd (some p) ≠ .ok () → failed (R.wireDigest p))
  | .adopt h _ => h ≠ hd.hash
  | .resolve _ _ => True

variable {failed : Hash → Prop} {n n' : Node} {b : Block} {skip : Bool}

/-- What a node may change elsewhere: the block keeps its status, and its witness if it has no
body. -/
theorem Following.congr (hn : Following R hd failed n) (hwf : n'.WF)
    (hget : n'.statuses.get? hd.hash = n.statuses.get? hd.hash)
    (hcache : ∀ d, n'.badWitnesses.contains hd.hash d = true →
      n.badWitnesses.contains hd.hash d = true ∨ failed d)
    (hproofs : n'.pomProofs.get? hd.hash = n.pomProofs.get? hd.hash) :
    Following R hd failed n' := by
  refine ⟨hwf, hget ▸ hn.status, fun d hd => (hcache d hd).elim (hn.failed d) id, ?_⟩
  rw [hget, hproofs]
  exact hn.naked

/-- Nothing is left of a failed validation that is not about the witness and does not mark. -/
theorem reject_of_missing {e : RuleError} (h : Hash) (digest : Option Hash) (gate : Bool)
    (hscope : witnessScopedError e = false) (hmark : marksBlockInvalid e gate = false) :
    (n.reject h digest e gate).statuses = n.statuses ∧
      (n.reject h digest e gate).badWitnesses = n.badWitnesses := by
  obtain ⟨-, -, -, -, hstat, hcache⟩ := reject_eq n h digest e gate
  rw [hstat, hcache, hmark, hscope]
  cases digest <;> exact ⟨rfl, rfl⟩

/-- **A failed delivery of a provable block** leaves its status, and remembers failed witnesses
only. -/
theorem Rules.Provable.reject (h : R.Provable hd txs) (hgate : R.pomV3Activation ≤ hd.daaScore)
    (hb : R.Harmless hd txs failed (.deliver b skip)) (hhash : b.header.hash = hd.hash)
    {e : RuleError} (he : R.validateBody n.hasBody b false skip = .error e) :
    let m := n.reject b.header.hash (R.witnessDigest b) e
      (decide (R.pomV3Activation ≤ b.header.daaScore))
    m.statuses = n.statuses ∧ ∀ d, m.badWitnesses.contains hd.hash d = true →
      n.badWitnesses.contains hd.hash d = true ∨ failed d := by
  obtain ⟨hheader, htxs, hwitness⟩ := hb hhash
  rw [hheader, decide_eq_true hgate]
  intro m
  have hkeep : m.statuses = n.statuses ∧ m.badWitnesses = n.badWitnesses →
      m.statuses = n.statuses ∧ ∀ d, m.badWitnesses.contains hd.hash d = true →
        n.badWitnesses.contains hd.hash d = true ∨ failed d := by
    rintro ⟨hstat, hcache⟩
    exact ⟨hstat, fun d hd => .inl (hcache ▸ hd)⟩
  obtain ⟨mass, hvalidate⟩ := h.validateBody n.hasBody b hheader htxs skip
  rw [hvalidate] at he
  cases hw : (if skip then .ok () else R.checkPomProof hd b.pomProof : Except RuleError Unit) with
  | ok u =>
    -- The parents are missing.
    rw [hw] at he
    rw [Rules.checkParentBodiesExist] at he
    split at he
    · obtain rfl := Except.error.inj he
      exact hkeep (reject_of_missing _ _ _ rfl rfl)
    · cases he
  | error e' =>
    rw [hw] at he
    obtain rfl : e' = e := Except.error.inj he
    cases skip with
    | true => cases hw
    | false =>
      rcases checkPomProof_cases hgate hw with ⟨-, rfl⟩ | ⟨p, hp, hforged | ⟨-, hscope⟩⟩
      · exact hkeep (reject_of_missing _ _ _ rfl rfl)
      · exact absurd hforged.1 ((hwitness p hp).1 rfl)
      · obtain ⟨-, -, -, -, hstat, hcache⟩ := reject_eq n hd.hash (R.witnessDigest b) e' true
        have hmark : marksBlockInvalid e' true = false := by
          cases e' <;> first | rfl | cases hscope
        refine ⟨by rw [hstat, hmark]; rfl, fun d hd' => ?_⟩
        have hdigest : R.witnessDigest b = some (R.wireDigest p) := by
          rw [Rules.witnessDigest, hheader, if_pos hgate, hp]
          rfl
        rw [hcache, hdigest, hscope] at hd'
        rcases BadWitnessCache.contains_insert hd' with heq | hold
        · have hne : R.checkPomProof hd (some p) ≠ .ok () := by
            rw [← hp]
            rintro hok
            rw [hok] at hw
            cases hw
          obtain rfl := (Prod.mk.inj heq).2
          exact .inr ((hwitness p hp).2 hne)
        · exact .inl hold

section

variable (hprov : R.Provable hd txs)
include hprov

section

variable (hgate : R.pomV3Activation ≤ hd.daaScore)
include hgate

/-- A delivery keeps the block unmarked. -/
theorem Following.outcome (hn : Following R hd failed n)
    (hb : R.Harmless hd txs failed (.deliver b skip)) (ho : Outcome R n b skip n') :
    Following R hd failed n' := by
  have hwf := ho.wf hn.wf
  cases ho with
  | kept => exact hn
  | rejected e hstatus he =>
    obtain ⟨-, -, hproofs, -, -, hcache⟩ := reject_eq n b.header.hash (R.witnessDigest b) e
      (decide (R.pomV3Activation ≤ b.header.daaScore))
    by_cases hhash : b.header.hash = hd.hash
    · obtain ⟨hsame, hfailed⟩ := hprov.reject hgate hb hhash he
      exact hn.congr hwf (by rw [hsame]) hfailed (by rw [hproofs])
    · -- Another block was rejected.
      refine hn.congr hwf (reject_get?_of_ne (Ne.symm hhash) _) (fun d hd' => .inl ?_)
        (by rw [hproofs])
      rw [hcache] at hd'
      split at hd'
      · split at hd'
        · rcases BadWitnessCache.contains_insert hd' with heq | hold
          · exact absurd (Prod.mk.inj heq).1.symm hhash
          · exact hold
        · exact hd'
      · exact hd'
  | stored mass m hstatus hv hm =>
    have hc := committedBody_of_commitBody hm
    by_cases hhash : b.header.hash = hd.hash
    · have hget : n'.statuses.get? hd.hash = some .utxoPendingVerification := by
        rw [hc.statuses, hhash]
        exact get?_insert_self _ _ _
      refine ⟨hwf, ⟨_, hget, by decide⟩, fun d hd' => hn.failed d (hc.badWitnesses ▸ hd'), ?_⟩
      intro honly
      rw [hget] at honly
      cases honly
    · have hne : hd.hash ≠ b.header.hash := fun heq => hhash heq.symm
      refine hn.congr hwf ?_ (fun d hd' => .inl (hc.badWitnesses ▸ hd')) (hc.pomProof_other _ hne)
      rw [hc.statuses]
      exact get?_insert_of_ne _ _ hne

/-- **A step** keeps the block unmarked. -/
theorem Following.step (hn : Following R hd failed n) {s : Step} (hs : R.Harmless hd txs failed s) :
    ∃ n', R.step n s = some n' ∧ Following R hd failed n' := by
  obtain ⟨n', hn', hwf⟩ := step_wf (R := R) hn.wf s
  refine ⟨n', hn', ?_⟩
  obtain ⟨status, hstatus, -⟩ := hn.status
  cases s with
  | deliver b ibd =>
    obtain ⟨-, hproofs, -, hcache⟩ := n.receiveHeader_stores b.header
    have hknown := n.receiveHeader_of_known (h := b.header) hstatus
    have hreceived : Following R hd failed (n.receiveHeader b.header) :=
      hn.congr (hn.wf.receiveHeader b.header) (hknown.trans hstatus.symm)
        (fun d hd' => .inl (hcache ▸ hd')) (by rw [hproofs])
    obtain ⟨s, hs₀, -⟩ := n.receiveHeader_status b.header
    obtain ⟨m, r, hm, ho⟩ := processBody_outcome R ibd hreceived.wf hs₀
    rw [Rules.step, hm] at hn'
    obtain rfl : m = n' := some.inj hn'
    exact hreceived.outcome hprov hgate hs ho
  | adopt h proof =>
    obtain ⟨proofs, heq, hother⟩ := adoptPomProof_eq (R := R) (n := n) h proof
    obtain rfl : { n with pomProofs := proofs } = n' := heq ▸ some.inj hn'
    exact hn.congr hwf rfl (fun _ => .inl) (hother _ fun heq => hs heq.symm)
  | resolve h status' =>
    obtain rfl : n.resolve h status' = n' := some.inj hn'
    rcases n.resolve_eq h status' with heq | ⟨hbody, hs', heq⟩
    · rw [heq]
      exact hn
    rw [heq] at hwf ⊢
    by_cases hh : h = hd.hash
    · -- The block itself: it has a body, and its new status is one of a block with a body.
      have hget : (n.statuses.insert h status').get? hd.hash = some status' := by
        rw [hh]
        exact get?_insert_self _ _ _
      refine ⟨hwf, ⟨status', hget, ?_⟩, hn.failed, fun honly => ?_⟩
      · rintro rfl
        cases hs'
      · obtain rfl : status' = .headerOnly := mem_unique hget honly
        cases hs'
    · exact hn.congr hwf (get?_insert_of_ne _ _ fun heq => hh heq.symm) (fun _ => .inl) rfl

/-- **A run** keeps the block unmarked. -/
theorem Following.run {steps : List Step} (hsteps : ∀ s ∈ steps, R.Harmless hd txs failed s)
    (hn : Following R hd failed n) :
    ∃ n', R.run n steps = some n' ∧ Following R hd failed n' := by
  induction steps generalizing n with
  | nil => exact ⟨n, rfl, hn⟩
  | cons s steps ih =>
    obtain ⟨m, hm, hfollow⟩ := hn.step hprov hgate (hsteps s mem_cons_self)
    obtain ⟨n', hn', hfollow'⟩ := ih (fun t ht => hsteps t (mem_cons_of_mem _ ht)) hfollow
    refine ⟨n', ?_, hfollow'⟩
    rw [Rules.run, foldlM_cons, hm]
    exact hn'

/-- An unmarked block without a body is accepted with a witness that verifies and did not fail
before. -/
theorem Following.accept (hn : Following R hd failed n)
    (honly : n.statuses.get? hd.hash = some .headerOnly)
    (hparents : ∀ p ∈ hd.directParents, n.hasBody p = true) {w : PomProof}
    (hw : R.checkPomProof hd (some w) = .ok ()) (hfresh : ¬ failed (R.wireDigest w))
    (pomTier : Option ℕ) :
    ∃ n', R.processBody n ⟨hd, txs, some w, pomTier⟩ false false
        = some (n', .ok .utxoPendingVerification) ∧
      n'.pomProofs.get? hd.hash = some w ∧ n'.pomTiers.get? hd.hash = some w.tier := by
  set b : Block := ⟨hd, txs, some w, pomTier⟩
  have hdigest : R.witnessDigest b = some (R.wireDigest w) := if_pos hgate
  have huncached : ¬ ((R.witnessDigest b).any (n.badWitnesses.contains b.header.hash) = true) := by
    rw [hdigest]
    exact fun hc => hfresh (hn.failed _ hc)
  obtain ⟨mass, hvalidate⟩ := hprov.validateBody n.hasBody b rfl rfl false
  have hmissing : Rules.checkParentBodiesExist n.hasBody hd = .ok () := by
    rw [Rules.checkParentBodiesExist, if_neg]
    rw [not_not, filter_eq_nil_iff]
    intro p hp
    rw [hparents p hp]
    decide
  have hok : R.validateBody n.hasBody b false false = .ok mass := by
    rw [hvalidate, hmissing]
    rw [hw]
    rfl
  obtain ⟨n', hn'⟩ := hn.wf.commitBody (n.hasBody_of_get? honly) txs (some w) pomTier
  have hc := committedBody_of_commitBody hn'
  refine ⟨n', ?_, hc.pomProof (hn.naked honly) w rfl, hc.pomTier.2 w.tier rfl⟩
  rw [Rules.processBody, honly]
  rw [if_neg huncached, hok]
  exact congrArg (Option.map fun m => (m, Except.ok BlockStatus.utxoPendingVerification)) hn'

end

end

end Following

/-- **Without forged tiers a valid block survives.** Whatever else the block is delivered with, it
is never marked invalid, and as long as it has no body a relayed witness that verifies is accepted
and stored with its tier. -/
theorem valid_block_survives (R : Rules) (hd : Header) (txs : List Transaction)
    (hgate : R.pomV3Activation ≤ hd.daaScore) (hprov : R.Provable hd txs) (n : Node) (hwf : n.WF)
    (hknown : n.statuses.get? hd.hash = some .headerOnly)
    (hnaked : n.pomProofs.get? hd.hash = none)
    (hcache : ∀ d, n.badWitnesses.contains hd.hash d = false) (steps : List Step)
    (hsame : ∀ b ibd, .deliver b ibd ∈ steps → b.header.hash = hd.hash →
      b.header = hd ∧ b.transactions = txs)
    (hadopt : ∀ h p, .adopt h p ∈ steps → h ≠ hd.hash)
    (hforged : ∀ b, .deliver b false ∈ steps → b.header.hash = hd.hash →
      ∀ p ∈ b.pomProof, ¬ R.ForgesTier hd p) :
    ∃ n', R.run n steps = some n' ∧ n'.statuses.get? hd.hash ≠ some .invalid ∧
      (n'.statuses.get? hd.hash = some .headerOnly →
        (∀ p ∈ hd.directParents, n'.hasBody p = true) →
        ∀ w pomTier, R.checkPomProof hd (some w) = .ok () →
          (∀ b ibd p, .deliver b ibd ∈ steps → b.header.hash = hd.hash → p ∈ b.pomProof →
            R.checkPomProof hd (some p) ≠ .ok () → R.wireDigest p ≠ R.wireDigest w) →
          ∃ n'', R.processBody n' ⟨hd, txs, some w, pomTier⟩ false false
              = some (n'', .ok .utxoPendingVerification) ∧
            n''.pomProofs.get? hd.hash = some w ∧ n''.pomTiers.get? hd.hash = some w.tier) := by
  let failed : Hash → Prop := fun d => ∃ b ibd p, .deliver b ibd ∈ steps ∧
    b.header.hash = hd.hash ∧ p ∈ b.pomProof ∧ R.checkPomProof hd (some p) ≠ .ok () ∧
    R.wireDigest p = d
  have hstart : Following R hd failed n := by
    refine ⟨hwf, ⟨_, hknown, by decide⟩, fun d hd' => ?_, fun _ => hnaked⟩
    rw [hcache d] at hd'
    cases hd'
  have hsteps : ∀ s ∈ steps, R.Harmless hd txs failed s := by
    intro s hs
    cases s with
    | deliver b ibd =>
      intro hhash
      obtain ⟨hheader, htxs⟩ := hsame b ibd hs hhash
      refine ⟨hheader, htxs, fun p hp => ⟨?_, fun hne => ⟨b, ibd, p, hs, hhash, hp, hne, rfl⟩⟩⟩
      rintro rfl
      exact hforged b hs hhash p hp
    | adopt h p => exact hadopt h p hs
    | resolve h status => trivial
  obtain ⟨n', hn', hfollow⟩ := hstart.run hprov hgate hsteps
  obtain ⟨status, hstatus, hvalid⟩ := hfollow.status
  refine ⟨n', hn', ?_, fun honly hparents w pomTier hw hdigest => ?_⟩
  · rw [hstatus]
    exact fun heq => hvalid (some.inj heq)
  · refine hfollow.accept hprov hgate honly hparents hw ?_ pomTier
    rintro ⟨b, ibd, p, hb, hhash, hp, hne, heq⟩
    exact hdigest b ibd p hb hhash hp hne heq

/-- Rules with every gate up to H6 active, whose verifier looks for one byte of evidence. -/
def sampleRules : Rules where
  maxBlockMass := 500000
  ghostdagK := 124
  pomActivation := 0
  veryLightActivation := 0
  pomLevelActivation := 0
  rewardRoutingActivation := 0
  coinAgeVerificationActivation := 0
  h5Activation := 0
  h51Activation := 0
  h52Activation := 0
  pomV3Activation := 0
  pomV4Activation := 2 ^ 64 - 1
  pomTiersLegacy := []
  pomTiersH2 := []
  pomTiersH4 := []
  pomTiersH5 := []
  pomTiersH6 := [⟨1, 203469888⟩, ⟨2, 149876736⟩, ⟨3, 305318656⟩]
  calcHashMerkleRoot := fun _ => 0
  validateTxInIsolation := fun _ => .ok ()
  validateTxInHeaderContext := fun _ _ => .ok ()
  pastMedianTime := fun _ => .ok 0
  validateOpoiTag := fun _ => .ok ()
  deserializeCoinbasePayload := fun _ => .ok ⟨1, 0, ⟨0, [1]⟩, []⟩
  parseEscrowPubkey := fun _ => some 1
  parseEscrowEsig := fun _ => some []
  verifyEscrowDelegation := fun _ _ _ => true
  calcBlockSubsidy := fun _ => 0
  prePowHash := fun _ => 0
  pomBlockSeed := fun _ _ _ _ => 0
  verifyPomProof := fun _ _ _ => .ok ()
  verifyPomProofV2 := fun _ _ _ _ => .ok ()
  verifyPomProofV3 := fun _ p _ => if p.evidence = [1] then .ok () else .error .missingV3
  verifyPomProofV4 := fun _ _ _ => .ok ()
  wireDigest := fun p => Fin.ofNat _ (p.tier + 8 * p.evidence.length)

/-- A header that commits tier 2 and final state 9. -/
def sampleHeader : Header :=
  ⟨5, [], 0, 0, 0, 0, 10, 1, 9, 2⟩

/-- The node after it received the header. -/
def sampleNode : Node :=
  ({} : Node).receiveHeader sampleHeader

theorem sampleNode_wf : sampleNode.WF :=
  fun _ _ => ⟨rfl, rfl⟩

/-- A failed witness, a naked relay and a wrong final state do not keep the block from being
accepted. -/
theorem valid_block_survives_retry :
    let txs : List Transaction := [{ id := 1, isCoinbase := true }]
    let steps : List Step := [.deliver ⟨sampleHeader, txs, some ⟨2, 9, []⟩, none⟩ false,
      .deliver ⟨sampleHeader, txs, none, some 0⟩ false,
      .deliver ⟨sampleHeader, txs, some ⟨1, 8, [1]⟩, none⟩ false]
    ∃ n', sampleRules.run sampleNode steps = some n' ∧
      n'.statuses.get? 5 ≠ some .invalid ∧
      ∃ n'', sampleRules.processBody n' ⟨sampleHeader, txs, some ⟨2, 9, [1]⟩, none⟩ false false
          = some (n'', .ok .utxoPendingVerification) ∧
        n''.pomProofs.get? 5 = some ⟨2, 9, [1]⟩ ∧ n''.pomTiers.get? 5 = some 2 := by
  intro txs steps
  have hsteps : ∀ {b ibd}, .deliver b ibd ∈ steps → ibd = false ∧
      (b = ⟨sampleHeader, txs, some ⟨2, 9, []⟩, none⟩ ∨ b = ⟨sampleHeader, txs, none, some 0⟩ ∨
        b = ⟨sampleHeader, txs, some ⟨1, 8, [1]⟩, none⟩) := by
    intro b ibd hb
    simp only [steps, mem_cons, Step.deliver.injEq] at hb
    tauto
  obtain ⟨n', hn', hvalid, haccept⟩ := valid_block_survives sampleRules sampleHeader txs (by decide)
    ⟨fun _ => true, ⟨2, 9, [1]⟩, none, (0, 0, 0), by decide⟩
    sampleNode sampleNode_wf (by decide) (by decide) (fun _ => rfl) steps
    (by
      intro b ibd hb _
      rcases (hsteps hb).2 with rfl | rfl | rfl <;> exact ⟨rfl, rfl⟩)
    (by
      intro h p hp
      simp [steps] at hp)
    (by
      intro b hb _ p hp hf
      rcases (hsteps hb).2 with rfl | rfl | rfl
      · cases hp
        exact hf.tier rfl
      · cases hp
      · cases hp
        exact absurd (hf.finalState (by decide)) (by decide))
  have honly : (sampleRules.run sampleNode steps).map (fun m => m.statuses.get? 5)
      = some (some .headerOnly) := by decide
  rw [hn'] at honly
  refine ⟨n', hn', hvalid, haccept (some.inj honly) (fun _ hp => by cases hp) ⟨2, 9, [1]⟩
    none (by decide) ?_⟩
  intro b ibd p hb _ hp _
  rcases (hsteps hb).2 with rfl | rfl | rfl
  · cases hp
    decide
  · cases hp
  · cases hp
    decide

/-- **A forged tier poisons a valid block.** The witness carries the final state of the header and
a known tier, and no evidence at all; afterwards the honest witness is turned away. -/
theorem forged_tier_poisons :
    let txs : List Transaction := [{ id := 1, isCoinbase := true }]
    sampleRules.pomV3Activation ≤ sampleHeader.daaScore ∧
      sampleRules.validateBody (fun _ => true) ⟨sampleHeader, txs, some ⟨2, 9, [1]⟩, none⟩ false
        false = .ok (0, 0, 0) ∧
      ∃ n', sampleRules.run sampleNode [.deliver ⟨sampleHeader, txs, some ⟨0, 9, []⟩, none⟩ false]
          = some n' ∧
        n'.statuses.get? 5 = some .invalid ∧
        sampleRules.processBody n' ⟨sampleHeader, txs, some ⟨2, 9, [1]⟩, none⟩ false false
          = some (n', .error .knownInvalid) := by
  refine ⟨by decide, by decide, _, rfl, by decide, by decide⟩

end Body

end KeryxNode
