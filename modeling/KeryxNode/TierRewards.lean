import KeryxNode.WitnessScope
import KeryxNode.ServiceStores

/-!
# Reward Tiers and How a Block Arrived

The miner cut of a rewarded blue is scaled by the tier stored for it
(`tier_bps_by_block`, `pipeline/virtual_processor/utxo_validation.rs`). The tier is stored with
the body and never afterwards: `process_body` stores it if the delivery carried a witness that
verifies, the initial block download stores a body without a witness and then stores no tier, and
`adopt_pom_proof` stores a witness but no tier. The header of a block past the gate commits to its
tier, so two stored tiers are the same; but a blue whose body one node took without a witness has
an entry in the map of the other node only.

## Main results

* `tier_maps_agree_iff`: the maps of two nodes agree exactly if each rewarded blue was stored with
  such a witness on both or on neither.
* `naked_download_changes_tiers`: two nodes whose maps differ.
-/

namespace KeryxNode

open List OrdMap Option

namespace Body

variable {h : Hash}

/-! ### The tier map -/

/-- The rules with what the reward map reads. -/
structure RewardRules extends Rules where
  minerKey : ScriptPublicKey → Hash
  serviceBondV2Activation : ℕ

/-- The reward of each tier in basis points, by era. -/
def tierRewardBps (veryLightActive pomV3Active : Bool) : List ℕ :=
  if pomV3Active then [6000, 7000, 8000, 9000, 10000]
  else if veryLightActive then [6800, 7600, 8400, 9200, 10000]
  else [8200, 8800, 9400, 10000]

def tierRewardBpsDivisor : ℕ := 10000

namespace RewardRules

variable (R : RewardRules)

/-- The identity of a body's producer. `none` is a panic. -/
def identityOfBody (txs : List Transaction) : Option Hash :=
  match txs with
  | [] => none
  | coinbase :: _ =>
    match R.deserializeCoinbasePayload coinbase.payload with
    | .ok data => some (R.minerKey data.scriptPublicKey)
    | .error _ => none

/-- The identity of a stored block's producer. `none` is a panic. -/
def identityOf (n : Node) (blue : Hash) : Option Hash :=
  (n.transactions.get? blue).bind R.identityOfBody

/-- The reward of a tier. From H6 on a producer out of standing gets that of the lowest tier. -/
def bpsOfTier (pov tier : ℕ) (inStanding : Bool) : ℕ :=
  let schedule := tierRewardBps (decide (R.veryLightActivation ≤ pov))
    (decide (R.pomV3Activation ≤ pov))
  if R.pomV3Activation ≤ pov ∧ inStanding = false then schedule.headD 0
  else (schedule[tier]?).getD tierRewardBpsDivisor

/-- The entry of a blue: none without a stored tier. -/
def blueBps (n : Node) (standing : StandingIndex) (pov : ℕ) (blue : Hash) : Option (Option ℕ) :=
  match n.pomTiers.get? blue with
  | none => some none
  | some tier =>
    if R.pomV3Activation ≤ pov then
      (R.identityOf n blue).map fun identity => some (R.bpsOfTier pov tier
        (standing.standing identity pov (decide (R.serviceBondV2Activation ≤ pov))))
    else some (some (R.bpsOfTier pov tier true))

/-- The blues a block rewards. -/
def rewardedBlues (mergesetBlues mergesetNonDaa : List Hash) : List Hash :=
  mergesetBlues.filter fun h => decide (h ∉ mergesetNonDaa)

/-- The reward map of a block. `none` is a panic. -/
def tierBpsByBlock (n : Node) (standing : StandingIndex) (mergesetBlues mergesetNonDaa : List Hash)
    (pov : ℕ) : Option (OrdMap Hash ℕ) :=
  if ¬ R.pomActivation ≤ pov then some .empty
  else (rewardedBlues mergesetBlues mergesetNonDaa).foldlM (fun map blue =>
    (R.blueBps n standing pov blue).map fun
      | some bps => map.insert blue bps
      | none => map) .empty

end RewardRules

/-! ### What a run stores -/

/-- The deliveries of a run that stored a body. -/
def Rules.storedBy (R : Rules) : Node → List Step → List (Block × Bool)
  | _, [] => []
  | n, s :: steps =>
    match R.step n s with
    | none => []
    | some n' =>
      (match s with
        | .deliver b ibd =>
          if !n.hasBody b.header.hash && n'.hasBody b.header.hash then [(b, ibd)] else []
        | _ => []) ++ R.storedBy n' steps

/-- The tier that is stored with a body. -/
def Rules.storedTier (R : Rules) (b : Block) (ibd : Bool) : Option ℕ :=
  ((R.attachments b ibd).1.map PomProof.tier).or (R.attachments b ibd).2

/-- The delivery was accepted, and its body and tier are stored. -/
structure StoredFrom (R : Rules) (b : Block) (ibd : Bool) (n : Node) : Prop where
  accepted : ∃ hasBody mass, R.validateBody hasBody b false ibd = .ok mass
  hasBody : n.hasBody b.header.hash = true
  transactions : n.transactions.get? b.header.hash = some b.transactions
  pomTier : n.pomTiers.get? b.header.hash = R.storedTier b ibd

/-- What is stored of one block. -/
def Node.bodyOf (n : Node) (h : Hash) : Bool × Option (List Transaction) × Option ℕ :=
  (n.hasBody h, n.transactions.get? h, n.pomTiers.get? h)

section Stored

variable {R : Rules} {n n' : Node} {b : Block} {ibd : Bool} {steps : List Step} {s : Step}

theorem StoredFrom.of_bodyOf (hs : StoredFrom R b ibd n)
    (h : n'.bodyOf b.header.hash = n.bodyOf b.header.hash) : StoredFrom R b ibd n' := by
  obtain ⟨hbody, htxs, htier⟩ : _ ∧ _ ∧ _ := by simpa [Node.bodyOf] using h
  exact ⟨hs.accepted, hbody.trans hs.hasBody, htxs.trans hs.transactions, htier.trans hs.pomTier⟩

/-- A delivery changes nothing of the stored bodies, or stores its own. -/
theorem Outcome.bodyOf (ho : Outcome R n b ibd n') (hwf : n.WF) (h : Hash) :
    n'.bodyOf h = n.bodyOf h ∨
      (b.header.hash = h ∧ n.hasBody h = false ∧ StoredFrom R b ibd n') := by
  cases ho with
  | kept => exact .inl rfl
  | rejected e hs he =>
    obtain ⟨-, htxs, -, htiers, -⟩ := reject_eq n b.header.hash (R.witnessDigest b) e
      (decide (R.pomV3Activation ≤ b.header.daaScore))
    exact .inl (by rw [Node.bodyOf, reject_hasBody hs, htxs, htiers, Node.bodyOf])
  | stored mass m hs hv hm =>
    have hc := committedBody_of_commitBody hm
    by_cases hh : h = b.header.hash
    · have hnone := n.hasBody_of_get? hs
      refine .inr ⟨hh.symm, hh ▸ hnone, ⟨_, mass, hv⟩, ?_, ?_, ?_⟩
      · rw [hc.hasBody, if_pos rfl]
      · rw [hc.transactions]
        exact get?_insert_self _ _ _
      · cases ht : R.storedTier b ibd with
        | none =>
          rw [hc.pomTier.1 ht]
          exact (hwf _ hnone).2
        | some t => exact hc.pomTier.2 t ht
    · left
      rw [Node.bodyOf, hc.hasBody, if_neg hh, hc.transactions, get?_insert_of_ne _ _ hh,
        hc.pomTier_other h hh, Node.bodyOf]

/-- **A step** changes nothing of the stored bodies, or is a delivery that stores its own. -/
theorem step_stores (hwf : n.WF) (hs : R.step n s = some n') (h : Hash) :
    n'.bodyOf h = n.bodyOf h ∨ ∃ b ibd, s = .deliver b ibd ∧ b.header.hash = h ∧
      n.hasBody h = false ∧ StoredFrom R b ibd n' := by
  cases s with
  | deliver b ibd =>
    obtain ⟨htxs, -, htiers, -⟩ := n.receiveHeader_stores b.header
    have hreceived : (n.receiveHeader b.header).bodyOf h = n.bodyOf h := by
      rw [Node.bodyOf, n.receiveHeader_hasBody, htxs, htiers, Node.bodyOf]
    obtain ⟨status, hstatus, -⟩ := n.receiveHeader_status b.header
    obtain ⟨m, r, hm, ho⟩ := processBody_outcome R ibd (hwf.receiveHeader b.header) hstatus
    rw [Rules.step, hm] at hs
    obtain rfl : m = n' := some.inj hs
    rcases ho.bodyOf (hwf.receiveHeader b.header) h with hsame | ⟨hh, hnone, hstored⟩
    · exact .inl (hsame.trans hreceived)
    · rw [n.receiveHeader_hasBody] at hnone
      exact .inr ⟨b, ibd, rfl, hh, hnone, hstored⟩
  | adopt k proof =>
    obtain ⟨proofs, heq, -⟩ := adoptPomProof_eq (R := R) (n := n) k proof
    obtain rfl : { n with pomProofs := proofs } = n' := heq ▸ some.inj hs
    exact .inl rfl
  | resolve k status =>
    obtain rfl : n.resolve k status = n' := some.inj hs
    left
    rw [Node.bodyOf, n.resolve_hasBody, Node.bodyOf]
    rcases n.resolve_eq k status with heq | ⟨-, -, heq⟩
    · rw [heq]
    · rw [heq]

/-- A run is its first step and the run from there. -/
theorem run_cons (hwf : n.WF) (hrun : R.run n (s :: steps) = some n') :
    ∃ m, R.step n s = some m ∧ m.WF ∧ R.run m steps = some n' := by
  obtain ⟨m, hm, hwf'⟩ := step_wf (R := R) hwf s
  refine ⟨m, hm, hwf', ?_⟩
  rw [Rules.run, foldlM_cons, hm] at hrun
  exact hrun

/-- The deliveries that store a body, of a run given by its first step. -/
theorem mem_storedBy_cons {m : Node} (hm : R.step n s = some m) {o : Block × Bool} :
    o ∈ R.storedBy n (s :: steps) ↔
      (s = .deliver o.1 o.2 ∧ n.hasBody o.1.header.hash = false ∧
        m.hasBody o.1.header.hash = true) ∨ o ∈ R.storedBy m steps := by
  rw [Rules.storedBy, hm]
  rw [mem_append]
  refine or_congr_left ?_
  cases s with
  | deliver b ibd =>
    simp only [Step.deliver.injEq]
    split
    · next hstored =>
      rw [Bool.and_eq_true, Bool.not_eq_true'] at hstored
      rw [mem_singleton]
      constructor
      · rintro rfl
        exact ⟨⟨rfl, rfl⟩, hstored⟩
      · rintro ⟨⟨rfl, rfl⟩, -⟩
        rfl
    · next hstored =>
      rw [Bool.and_eq_true, Bool.not_eq_true'] at hstored
      refine iff_of_false not_mem_nil ?_
      rintro ⟨⟨rfl, rfl⟩, h⟩
      exact hstored h
  | adopt k proof => simp
  | resolve k status => simp

/-- A stored body stays, and is not stored again. -/
theorem run_keeps (hwf : n.WF) (hrun : R.run n steps = some n') (hbody : n.hasBody h = true) :
    n'.bodyOf h = n.bodyOf h ∧ ∀ o ∈ R.storedBy n steps, o.1.header.hash ≠ h := by
  induction steps generalizing n with
  | nil =>
    cases hrun
    exact ⟨rfl, nofun⟩
  | cons s steps ih =>
    obtain ⟨m, hm, hwf', hrun'⟩ := run_cons hwf hrun
    have hsame : m.bodyOf h = n.bodyOf h := by
      rcases step_stores hwf hm h with hsame | ⟨-, -, -, -, hnone, -⟩
      · exact hsame
      · rw [hbody] at hnone
        cases hnone
    have hbody' : m.hasBody h = true := (Prod.mk.inj hsame).1.trans hbody
    obtain ⟨hkeep, hnew⟩ := ih hwf' hrun' hbody'
    refine ⟨hkeep.trans hsame, fun o ho => ?_⟩
    rcases (mem_storedBy_cons hm).mp ho with ⟨-, hnone, -⟩ | ho
    · rintro rfl
      rw [hbody] at hnone
      cases hnone
    · exact hnew o ho

/-- **A run** that ends with a body has one delivery that stored it. -/
theorem run_stores (hwf : n.WF) (hrun : R.run n steps = some n')
    (hnone : n.hasBody h = false) (hbody : n'.hasBody h = true) :
    ∃ b ibd, .deliver b ibd ∈ steps ∧ b.header.hash = h ∧ StoredFrom R b ibd n' ∧
      ∀ o, (o ∈ R.storedBy n steps ∧ o.1.header.hash = h) ↔ o = (b, ibd) := by
  induction steps generalizing n with
  | nil =>
    cases hrun
    rw [hnone] at hbody
    cases hbody
  | cons s steps ih =>
    obtain ⟨m, hm, hwf', hrun'⟩ := run_cons hwf hrun
    rcases step_stores hwf hm h with hsame | ⟨b, ibd, rfl, hh, -, hstored⟩
    · -- The body is not stored yet.
      have hnone' : m.hasBody h = false := (Prod.mk.inj hsame).1.trans hnone
      obtain ⟨b, ibd, hmem, hh, hstored, huniq⟩ := ih hwf' hrun' hnone'
      refine ⟨b, ibd, mem_cons_of_mem _ hmem, hh, hstored, fun o => ?_⟩
      rw [← huniq o, mem_storedBy_cons hm]
      refine ⟨?_, fun ho => ⟨.inr ho.1, ho.2⟩⟩
      rintro ⟨⟨-, -, hm'⟩ | ho, rfl⟩
      · rw [hnone'] at hm'
        cases hm'
      · exact ⟨ho, rfl⟩
    · -- This step stores it, and it stays.
      subst hh
      obtain ⟨hkeep, hnew⟩ := run_keeps hwf' hrun' hstored.hasBody
      refine ⟨b, ibd, mem_cons_self, rfl, hstored.of_bodyOf hkeep, fun o => ?_⟩
      rw [mem_storedBy_cons hm]
      constructor
      · rintro ⟨⟨heq, -, -⟩ | ho, hh⟩
        · obtain ⟨rfl, rfl⟩ := Step.deliver.inj heq
          rfl
        · exact absurd hh (hnew o ho)
      · rintro rfl
        exact ⟨.inl ⟨rfl, hnone, hstored.hasBody⟩, rfl⟩

end Stored

/-! ### The stored tier -/

/-- The delivery carries a witness that verifies. -/
def Rules.Proves (R : Rules) (b : Block) : Prop :=
  ∃ p, b.pomProof = some p ∧ R.checkPomProof b.header (some p) = .ok ()

/-- Possession is enforced from the gate on. -/
structure Rules.Enforced (R : Rules) : Prop where
  skipOpoi : R.skipOpoi = false
  gates : R.pomActivation ≤ R.pomV3Activation

section Tier

variable {R : Rules} {b : Block} {ibd : Bool}

/-- A witness that verifies past the gate has the tier of the header. -/
theorem checkPomProof_ok (henf : R.Enforced) {h : Header} (hgate : R.pomV3Activation ≤ h.daaScore)
    {pomProof : Option PomProof} (hok : R.checkPomProof h pomProof = .ok ()) :
    ∃ p, pomProof = some p ∧ p.tier = h.pomTier := by
  unfold Rules.checkPomProof at hok
  rw [if_neg (by rw [henf.skipOpoi]; decide), if_neg (not_not.mpr (henf.gates.trans hgate))] at hok
  cases pomProof with
  | none => cases hok
  | some p =>
    refine ⟨p, rfl, ?_⟩
    dsimp only at hok
    split at hok
    · cases hok
    split at hok
    · cases hok
    split at hok
    · cases hok
    · next htier => exact (not_not.mp fun hne => htier ⟨hgate, hne⟩).symm

/-- **The stored tier** of an accepted delivery past the gate: the header's, if the delivery
carried a witness that verifies, and none otherwise. -/
theorem accepted_tier (henf : R.Enforced) (hgate : R.pomV3Activation ≤ b.header.daaScore)
    {hasBody : Hash → Bool} {mass : ℕ × ℕ × ℕ}
    (hok : R.validateBody hasBody b false ibd = .ok mass) :
    (R.Proves b ∧ R.storedTier b ibd = some b.header.pomTier) ∨
      (¬ R.Proves b ∧ R.storedTier b ibd = none) := by
  cases ibd with
  | false =>
    -- A relayed body is accepted with a witness that verifies only.
    obtain ⟨m, hiso, -⟩ := bind_eq_ok hok
    obtain ⟨m', -, hrest⟩ := bind_eq_ok hiso
    obtain ⟨⟨⟩, hcheck, -⟩ := bind_eq_ok hrest
    obtain ⟨p, hp, htier⟩ := checkPomProof_ok henf hgate hcheck
    refine .inl ⟨⟨p, hp, hp ▸ hcheck⟩, ?_⟩
    rw [Rules.storedTier, Rules.attachments, hp, ← htier]
    rfl
  | true =>
    rw [Rules.storedTier, Rules.attachments]
    cases hp : b.pomProof with
    | none => exact .inr ⟨by simp [Rules.Proves, hp], rfl⟩
    | some p =>
      cases hcheck : R.checkPomProof b.header (some p) with
      | ok u =>
        obtain ⟨p', ⟨⟩, htier⟩ := checkPomProof_ok henf hgate hcheck
        refine .inl ⟨⟨p, hp, hcheck⟩, ?_⟩
        rw [← htier]
        rfl
      | error e => exact .inr ⟨by simp [Rules.Proves, hp, hcheck], rfl⟩

end Tier

/-! ### Two nodes -/

/-- The delivery that stored the body carried a witness that verifies. -/
def Rules.ProvenIn (R : Rules) (n : Node) (steps : List Step) (h : Hash) : Prop :=
  ∃ o ∈ R.storedBy n steps, o.1.header.hash = h ∧ R.Proves o.1

section Maps

variable {R : RewardRules}

/-- The producer of an accepted body past the gate has an identity. -/
theorem accepted_identity (henf : R.Enforced) {b : Block} {ibd : Bool}
    (hgate : R.pomV3Activation ≤ b.header.daaScore) {hasBody : Hash → Bool} {mass : ℕ × ℕ × ℕ}
    (hok : R.validateBody hasBody b false ibd = .ok mass) :
    ∃ id, R.identityOfBody b.transactions = some id := by
  obtain ⟨m, hiso, -⟩ := bind_eq_ok hok
  obtain ⟨m', hchecks, -⟩ := bind_eq_ok hiso
  -- The last of the checks without the witness decodes the coinbase.
  rw [Rules.checksWithoutWitness] at hchecks
  simp only [↓bind_unit_eq_ok, bind_eq_ok_iff] at hchecks
  obtain ⟨htxs, -, -, -, -, m'', -, -, -, -, -, hescrow, -⟩ := hchecks
  cases hb : b.transactions with
  | nil =>
    rw [hb] at htxs
    cases htxs
  | cons coinbase rest =>
    rw [hb, headD_cons, Rules.checkEscrowDelegation, henf.skipOpoi, decide_eq_true hgate] at hescrow
    obtain ⟨data, hdata, -⟩ := bind_eq_ok hescrow
    rw [RewardRules.identityOfBody]
    cases hd : R.deserializeCoinbasePayload coinbase.payload with
    | error e =>
      rw [hd] at hdata
      cases hdata
    | ok data => exact ⟨_, rfl⟩

/-- **The entry of a rewarded blue**: the reward of the header's tier if its body was stored with
a witness that verifies, none otherwise. -/
theorem blueBps_eq (henf : R.Enforced) {blockOf : Hash → Header × List Transaction} {n n' : Node}
    (hwf : n.WF) {steps : List Step} (hrun : R.run n steps = some n')
    (hsame : ∀ b ibd, .deliver b ibd ∈ steps → (b.header, b.transactions) = blockOf b.header.hash)
    (hnone : n.hasBody h = false) (hbody : n'.hasBody h = true)
    (hgate : R.pomV3Activation ≤ (blockOf h).1.daaScore) (standing : StandingIndex) {pov : ℕ}
    (hpov : R.pomV3Activation ≤ pov) :
    ∃ id, R.identityOfBody (blockOf h).2 = some id ∧
      ((R.ProvenIn n steps h ∧ R.blueBps n' standing pov h = some (some (R.bpsOfTier pov
          (blockOf h).1.pomTier
          (standing.standing id pov (decide (R.serviceBondV2Activation ≤ pov)))))) ∨
        (¬ R.ProvenIn n steps h ∧ R.blueBps n' standing pov h = some none)) := by
  obtain ⟨b, ibd, hmem, rfl, hstored, huniq⟩ := run_stores hwf hrun hnone hbody
  rw [← hsame b ibd hmem] at hgate ⊢
  obtain ⟨hasBody, mass, hok⟩ := hstored.accepted
  obtain ⟨id, hid⟩ := accepted_identity henf hgate hok
  have hproven : R.ProvenIn n steps b.header.hash ↔ R.Proves b := by
    constructor
    · rintro ⟨o, ho, hh, hp⟩
      obtain rfl := (huniq o).mp ⟨ho, hh⟩
      exact hp
    · exact fun hp => ⟨(b, ibd), ((huniq _).mpr rfl).1, rfl, hp⟩
  refine ⟨id, hid, ?_⟩
  rw [hproven, RewardRules.blueBps, hstored.pomTier]
  rcases accepted_tier henf hgate hok with ⟨hp, htier⟩ | ⟨hp, htier⟩
  · refine .inl ⟨hp, ?_⟩
    have hident : R.identityOf n' b.header.hash = some id := by
      rw [RewardRules.identityOf, hstored.transactions]
      exact hid
    rw [htier]
    dsimp only
    rw [if_pos hpov, hident]
    rfl
  · exact .inr ⟨hp, by rw [htier]⟩

/-- The map of entries that do not panic. -/
theorem get?_tierBpsByBlock {n : Node} {standing : StandingIndex} {blues nonDaa : List Hash}
    {pov : ℕ} (hpom : R.pomActivation ≤ pov) {g : Hash → Option ℕ}
    (hg : ∀ h ∈ RewardRules.rewardedBlues blues nonDaa, R.blueBps n standing pov h = some (g h)) :
    ∃ map, R.tierBpsByBlock n standing blues nonDaa pov = some map ∧
      ∀ h, map.get? h = if h ∈ RewardRules.rewardedBlues blues nonDaa then g h else none := by
  rw [RewardRules.tierBpsByBlock, if_neg (not_not.mpr hpom)]
  generalize RewardRules.rewardedBlues blues nonDaa = l at hg ⊢
  induction l using reverseRecOn with
  | nil => exact ⟨.empty, rfl, fun h => (if_neg not_mem_nil).symm⟩
  | append_singleton l blue ih =>
    obtain ⟨map, hmap, hget⟩ := ih fun h hh => hg h (mem_append_left _ hh)
    rw [foldlM_append, hmap, Option.bind_eq_bind, bind_some, foldlM_cons, hg blue (by simp)]
    refine ⟨_, rfl, fun h => ?_⟩
    by_cases hh : h = blue
    · subst hh
      cases hgb : g h <;> simp [hget, hgb]
    · cases hgb : g blue <;> simp [hh, get?_insert_of_ne, hget]

end Maps

/-- **Reward tiers agree exactly if the witnesses do.** Two nodes that hold the bodies of the
rewarded blues, all past the gate, and agree on standing compute the same reward map if and only
if every rewarded blue was stored with a witness that verifies on both nodes or on neither. -/
theorem tier_maps_agree_iff (R : RewardRules) (henf : R.Enforced)
    (blockOf : Hash → Header × List Transaction) (n₁ n₂ n₁' n₂' : Node) (hwf₁ : n₁.WF)
    (hwf₂ : n₂.WF) (steps₁ steps₂ : List Step) (hrun₁ : R.run n₁ steps₁ = some n₁')
    (hrun₂ : R.run n₂ steps₂ = some n₂')
    (hsame₁ : ∀ b ibd, .deliver b ibd ∈ steps₁ → (b.header, b.transactions) = blockOf b.header.hash)
    (hsame₂ : ∀ b ibd, .deliver b ibd ∈ steps₂ → (b.header, b.transactions) = blockOf b.header.hash)
    (blues nonDaa : List Hash) (pov : ℕ) (hpov : R.pomV3Activation ≤ pov)
    (hblues : ∀ h ∈ RewardRules.rewardedBlues blues nonDaa,
      R.pomV3Activation ≤ (blockOf h).1.daaScore ∧ n₁.hasBody h = false ∧ n₂.hasBody h = false ∧
        n₁'.hasBody h = true ∧ n₂'.hasBody h = true)
    (standing₁ standing₂ : StandingIndex)
    (hstanding : ∀ id, standing₁.standing id pov (decide (R.serviceBondV2Activation ≤ pov))
      = standing₂.standing id pov (decide (R.serviceBondV2Activation ≤ pov))) :
    ∃ map₁ map₂, R.tierBpsByBlock n₁' standing₁ blues nonDaa pov = some map₁ ∧
      R.tierBpsByBlock n₂' standing₂ blues nonDaa pov = some map₂ ∧
      (map₁ = map₂ ↔ ∀ h ∈ RewardRules.rewardedBlues blues nonDaa,
        (R.ProvenIn n₁ steps₁ h ↔ R.ProvenIn n₂ steps₂ h)) := by
  have hpom : R.pomActivation ≤ pov := henf.gates.trans hpov
  -- The entries of the two nodes, blue by blue.
  have hentry : ∀ h ∈ RewardRules.rewardedBlues blues nonDaa, ∃ e₁ e₂,
      R.blueBps n₁' standing₁ pov h = some e₁ ∧ R.blueBps n₂' standing₂ pov h = some e₂ ∧
        (e₁ = e₂ ↔ (R.ProvenIn n₁ steps₁ h ↔ R.ProvenIn n₂ steps₂ h)) := by
    intro h hh
    obtain ⟨hgate, hnone₁, hnone₂, hbody₁, hbody₂⟩ := hblues h hh
    obtain ⟨id, hid, hcase₁⟩ := blueBps_eq henf hwf₁ hrun₁ hsame₁ hnone₁ hbody₁ hgate standing₁ hpov
    obtain ⟨id', hid', hcase₂⟩ := blueBps_eq henf hwf₂ hrun₂ hsame₂ hnone₂ hbody₂ hgate standing₂
      hpov
    obtain rfl : id = id' := mem_unique hid hid'
    rw [← hstanding] at hcase₂
    rcases hcase₁ with ⟨hp₁, he₁⟩ | ⟨hp₁, he₁⟩ <;> rcases hcase₂ with ⟨hp₂, he₂⟩ | ⟨hp₂, he₂⟩ <;>
      exact ⟨_, _, he₁, he₂, by simp [hp₁, hp₂]⟩
  choose! e₁ e₂ he₁ he₂ hiff using hentry
  obtain ⟨map₁, hmap₁, hget₁⟩ := get?_tierBpsByBlock hpom he₁
  obtain ⟨map₂, hmap₂, hget₂⟩ := get?_tierBpsByBlock hpom he₂
  refine ⟨map₁, map₂, hmap₁, hmap₂, ⟨fun heq h hh => ?_, fun hall => ?_⟩⟩
  · have hget := hget₁ h
    rw [heq, hget₂ h, if_pos hh, if_pos hh] at hget
    exact (hiff h hh).mp hget.symm
  · refine ext_get? fun h => ?_
    rw [hget₁ h, hget₂ h]
    split
    · next hh => exact (hiff h hh).mpr (hall h hh)
    · rfl

/-- The sample rules with the identity of a payout script. -/
def sampleRewardRules : RewardRules :=
  { sampleRules with
    minerKey := fun spk => Fin.ofNat _ spk.version
    serviceBondV2Activation := 0 }

/-- Two nodes take one block with its witness, one by relay and one by download, and download
another one without. Their maps are the same, and have the block with the witness only. -/
theorem tier_maps_agree_iff_download :
    let b : Block := ⟨sampleHeader, [{ id := 1, isCoinbase := true }], some ⟨2, 9, [1]⟩, some 2⟩
    let naked : Block := { b with header := { sampleHeader with hash := 6 }, pomProof := none }
    let standing : StandingIndex := { firstSeen := OrdMap.empty.insert 0 0 }
    let steps₁ : List Step := [.deliver b false, .deliver naked true]
    let steps₂ : List Step := [.deliver naked true, .deliver b true]
    ∃ n₁ n₂, sampleRewardRules.run sampleNode steps₁ = some n₁ ∧
      sampleRewardRules.run sampleNode steps₂ = some n₂ ∧
      (∀ n ∈ [n₁, n₂], sampleRewardRules.tierBpsByBlock n standing [5, 6] [] serviceStandingLagDaa
        = some (empty.insert 5 8000)) ∧
      ∀ h ∈ [5, 6], (sampleRewardRules.ProvenIn sampleNode steps₁ h ↔
        sampleRewardRules.ProvenIn sampleNode steps₂ h) := by
  intro b naked standing steps₁ steps₂
  have hrun : ∀ steps ∈ [steps₁, steps₂], ∃ n ∈ sampleRewardRules.run sampleNode steps,
      (n.hasBody 5 = true ∧ n.hasBody 6 = true) ∧ sampleRewardRules.tierBpsByBlock n standing
        [5, 6] [] serviceStandingLagDaa = some (empty.insert 5 8000) := by
    decide +kernel
  obtain ⟨n₁, hrun₁, hbody₁, hmap₁⟩ := hrun _ mem_cons_self
  obtain ⟨n₂, hrun₂, hbody₂, hmap₂⟩ := hrun _ (mem_cons_of_mem _ mem_cons_self)
  have hsame : ∀ b' ibd, .deliver b' ibd ∈ steps₁ ∨ .deliver b' ibd ∈ steps₂ →
      (b'.header, b'.transactions)
        = ({ sampleHeader with hash := b'.header.hash }, b.transactions) := by
    intro b' ibd hb'
    simp only [steps₁, steps₂, mem_cons, not_mem_nil, or_false, Step.deliver.injEq] at hb'
    rcases hb' with (⟨rfl, -⟩ | ⟨rfl, -⟩) | ⟨rfl, -⟩ | ⟨rfl, -⟩ <;> rfl
  have hblues : ∀ h ∈ RewardRules.rewardedBlues [5, 6] [], sampleRewardRules.pomV3Activation ≤ 10 ∧
      sampleNode.hasBody h = false ∧ sampleNode.hasBody h = false ∧ n₁.hasBody h = true ∧
      n₂.hasBody h = true := by
    intro h hh
    rcases mem_pair.mp (mem_of_mem_filter hh) with rfl | rfl
    · exact ⟨by decide, by decide, by decide, hbody₁.1, hbody₂.1⟩
    · exact ⟨by decide, by decide, by decide, hbody₁.2, hbody₂.2⟩
  obtain ⟨map₁, map₂, h₁, h₂, hiff⟩ := tier_maps_agree_iff sampleRewardRules ⟨rfl, le_rfl⟩
    (fun h => ({ sampleHeader with hash := h }, b.transactions)) sampleNode sampleNode n₁ n₂
    sampleNode_wf sampleNode_wf steps₁ steps₂ hrun₁ hrun₂ (fun b' ibd h => hsame b' ibd (.inl h))
    (fun b' ibd h => hsame b' ibd (.inr h)) [5, 6] [] serviceStandingLagDaa (by decide) hblues
    standing standing fun _ => rfl
  have hmaps : map₁ = map₂ := some.inj (h₁.symm.trans (hmap₁.trans (hmap₂.symm.trans h₂)))
  exact ⟨n₁, n₂, hrun₁, hrun₂, forall_mem_cons.mpr ⟨hmap₁, forall_mem_singleton.mpr hmap₂⟩,
    hiff.mp hmaps⟩

/-- **A naked download changes the tiers.** One node gets the block by relay with its witness,
the other downloads it without and adopts the same witness afterwards. The first pays the tier's
share of the cut, the second has no entry and pays the full cut. -/
theorem naked_download_changes_tiers :
    let b : Block := ⟨sampleHeader, [{ id := 1, isCoinbase := true }], some ⟨2, 9, [1]⟩, some 2⟩
    let standing : StandingIndex := { firstSeen := OrdMap.empty.insert 0 0 }
    let pov := serviceStandingLagDaa
    ∃ n₁ n₂, sampleRewardRules.run sampleNode [.deliver b false] = some n₁ ∧
      sampleRewardRules.run sampleNode [.deliver { b with pomProof := none } true,
        .adopt 5 ⟨2, 9, [1]⟩] = some n₂ ∧
      n₁.pomProofs = n₂.pomProofs ∧
      sampleRewardRules.tierBpsByBlock n₁ standing [5] [] pov = some (empty.insert 5 8000) ∧
      sampleRewardRules.tierBpsByBlock n₂ standing [5] [] pov = some .empty := by
  refine ⟨_, _, rfl, rfl, by decide, by decide, by decide⟩

end Body

end KeryxNode
