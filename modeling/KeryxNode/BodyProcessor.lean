import KeryxNode.BodyRules
import KeryxNode.OrdMap

/-!
# The Body Stage

`process_body` takes one delivered body: it consults the status of the block and the cache of
witnesses that failed for it, validates, and either commits the body with its witness and tier or
rejects the delivery, marking the block invalid if the error is one of the block itself
(`pipeline/body_processor/processor.rs`). `adopt_pom_proof` supplies a witness later on.

A run of the stage interleaves deliveries of any blocks, adoptions and the status changes of the
virtual processor. What one delivery can do is said once (`Outcome`); the results about runs go by
its cases.
-/

namespace KeryxNode

open OrdMap List

namespace Body

/-! ### The node -/

inductive BlockStatus where
  | invalid
  | utxoValid
  | utxoPendingVerification
  | disqualifiedFromChain
  | headerOnly
  deriving DecidableEq

def BlockStatus.hasBlockBody : BlockStatus → Bool
  | .utxoValid | .utxoPendingVerification | .disqualifiedFromChain => true
  | .invalid | .headerOnly => false

/-- The witnesses that failed, by block and digest, in two generations. -/
structure BadWitnessCache where
  current : List (Hash × Hash) := []
  previous : List (Hash × Hash) := []
  deriving DecidableEq

namespace BadWitnessCache

def generationCap : ℕ := 4096

def contains (c : BadWitnessCache) (block digest : Hash) : Bool :=
  decide ((block, digest) ∈ c.current) || decide ((block, digest) ∈ c.previous)

/-- Inserts into the current generation; a full one becomes the previous one first. -/
def insert (c : BadWitnessCache) (block digest : Hash) : BadWitnessCache :=
  let rotated := if generationCap ≤ c.current.length then ⟨[], c.current⟩ else c
  { rotated with current := List.insert (block, digest) rotated.current }

theorem contains_insert {c : BadWitnessCache} {block digest block' digest' : Hash}
    (h : (c.insert block digest).contains block' digest' = true) :
    (block', digest') = (block, digest) ∨ c.contains block' digest' = true := by
  simp only [contains, insert, Bool.or_eq_true, decide_eq_true_eq, mem_insert_iff] at h ⊢
  by_cases hfull : generationCap ≤ c.current.length
  · simp only [hfull, if_true, not_mem_nil, or_false, decide_eq_true_eq] at h
    exact h.imp_right .inl
  · simp only [hfull, decide_eq_true_eq] at h
    rwa [or_assoc] at h

end BadWitnessCache

/-- The stores of the body stage. -/
structure Node where
  statuses : OrdMap Hash BlockStatus := .empty
  headers : OrdMap Hash Header := .empty
  transactions : OrdMap Hash (List Transaction) := .empty
  pomProofs : OrdMap Hash PomProof := .empty
  pomTiers : OrdMap Hash ℕ := .empty
  badWitnesses : BadWitnessCache := {}
  deriving DecidableEq

/-- Errors that are about the witness and not about the block. -/
def witnessScopedError : RuleError → Bool
  | .badPomProof _ | .badPomProofV3 _ | .badPomProofV4 _ | .pomFinalStateMismatch _ _
  | .pomUnknownTier _ => true
  | _ => false

/-- Whether an error marks the block invalid. -/
def marksBlockInvalid (e : RuleError) (badWitnessRejectsDelivery : Bool) : Bool :=
  match e with
  | .badMerkleRoot _ _ | .missingParents _ | .prunedBlock | .pomProofMissing
  | .knownBadPomWitness => false
  | e => !(badWitnessRejectsDelivery && witnessScopedError e)

namespace Node

/-- Whether the body of a block is stored. -/
def hasBody (n : Node) (h : Hash) : Bool :=
  (n.statuses.get? h).any BlockStatus.hasBlockBody

/-- Stores a body. `none` is the panic of a store that already has a row of the block; a witness
adopted before is kept. -/
def commitBody (n : Node) (h : Hash) (txs : List Transaction) (pomProof : Option PomProof)
    (pomTier : Option ℕ) : Option Node :=
  let tier := (pomProof.map PomProof.tier).or pomTier
  if n.transactions.contains h || (tier.isSome && n.pomTiers.contains h) then none
  else some { n with
    transactions := n.transactions.insert h txs
    pomProofs := match pomProof with
      | some p => if n.pomProofs.contains h then n.pomProofs else n.pomProofs.insert h p
      | none => n.pomProofs
    pomTiers := match tier with
      | some t => n.pomTiers.insert h t
      | none => n.pomTiers
    statuses := n.statuses.insert h .utxoPendingVerification }

/-- What a failed validation leaves. -/
def reject (n : Node) (h : Hash) (digest : Option Hash) (e : RuleError)
    (badWitnessRejectsDelivery : Bool) : Node :=
  let remembered := match digest with
    | some d => if witnessScopedError e then
        { n with badWitnesses := n.badWitnesses.insert h d } else n
    | none => n
  if marksBlockInvalid e badWitnessRejectsDelivery then
    { remembered with statuses := remembered.statuses.insert h .invalid }
  else remembered

end Node

namespace Rules

variable (R : Rules)

/-- The witness and tier that are stored with a body. The path of the initial block download
verifies here, and drops what does not verify. -/
def attachments (b : Block) (skipPomProof : Bool) : Option PomProof × Option ℕ :=
  let pomProof :=
    if skipPomProof && b.pomProof.isSome then
      match R.checkPomProof b.header b.pomProof with
      | .ok _ => b.pomProof
      | .error _ => none
    else b.pomProof
  (pomProof, if skipPomProof && pomProof.isNone then none else b.pomTier)

/-- The digest a delivery is looked up and remembered by, past the gate. -/
def witnessDigest (b : Block) : Option Hash :=
  if R.pomV3Activation ≤ b.header.daaScore then b.pomProof.map R.wireDigest else none

/-- Processes a delivered body. `none` is a panic. -/
def processBody (n : Node) (b : Block) (isTrusted skipPomProof : Bool) :
    Option (Node × Except RuleError BlockStatus) :=
  match n.statuses.get? b.header.hash with
  | none => none
  | some .invalid => some (n, .error .knownInvalid)
  | some .headerOnly =>
    let badWitnessRejectsDelivery := decide (R.pomV3Activation ≤ b.header.daaScore)
    let digest := R.witnessDigest b
    if digest.any (n.badWitnesses.contains b.header.hash) then
      some (n, .error .knownBadPomWitness)
    else
      match R.validateBody n.hasBody b isTrusted skipPomProof with
      | .error e => some (n.reject b.header.hash digest e badWitnessRejectsDelivery, .error e)
      | .ok _ =>
        let stored := R.attachments b skipPomProof
        (n.commitBody b.header.hash b.transactions stored.1 stored.2).map fun n' =>
          (n', .ok .utxoPendingVerification)
  | some status => some (n, .ok status)

/-- Errors of an adoption. -/
inductive AdoptError where
  | headerNotFound (h : Hash)
  | rejected (h : Hash) (e : RuleError)
  deriving DecidableEq

/-- Verifies a witness against the stored header and stores it if there is none. -/
def adoptPomProof (n : Node) (h : Hash) (proof : PomProof) : Node × Except AdoptError Bool :=
  if n.pomProofs.contains h then (n, .ok false)
  else
    match n.headers.get? h with
    | none => (n, .error (.headerNotFound h))
    | some header =>
      match R.checkPomProof header (some proof) with
      | .error e => (n, .error (.rejected h e))
      | .ok _ => ({ n with pomProofs := n.pomProofs.insert h proof }, .ok true)

end Rules

/-! ### Runs -/

/-- One step of the stage. Blocks that the import of a pruning point trusts are stored without these
checks and are not steps. -/
inductive Step where
  /-- A delivery, by relay or by the initial block download. -/
  | deliver (b : Block) (ibd : Bool)
  | adopt (h : Hash) (proof : PomProof)
  /-- The virtual processor decides on a stored body. -/
  | resolve (h : Hash) (status : BlockStatus)
  deriving DecidableEq

namespace Node

/-- The header stage stores an unknown header first. -/
def receiveHeader (n : Node) (h : Header) : Node :=
  if n.statuses.contains h.hash then n
  else { n with
    statuses := n.statuses.insert h.hash .headerOnly
    headers := n.headers.insert h.hash h }

/-- The status after a decision of the virtual processor. -/
def resolve (n : Node) (h : Hash) (status : BlockStatus) : Node :=
  if n.hasBody h && status.hasBlockBody then
    { n with statuses := n.statuses.insert h status }
  else n

end Node

namespace Rules

variable (R : Rules)

/-- One step. `none` is a panic. -/
def step (n : Node) : Step → Option Node
  | .deliver b ibd => (R.processBody (n.receiveHeader b.header) b false ibd).map Prod.fst
  | .adopt h proof => some (R.adoptPomProof n h proof).1
  | .resolve h status => some (n.resolve h status)

/-- A run. -/
def run (n : Node) (steps : List Step) : Option Node :=
  steps.foldlM R.step n

end Rules

/-! ### What a witness can cause -/

section Witness

variable {R : Rules} {h : Header}

/-- The witness is the one of another tier than the header commits to, in everything the header
pins. -/
structure Rules.ForgesTier (R : Rules) (h : Header) (p : PomProof) : Prop where
  enforced : R.skipOpoi = false ∧ R.pomActivation ≤ h.daaScore
  finalState : R.pomLevelActivation ≤ h.daaScore → p.finalState = h.pomFinalState
  known : p.tier < (R.pomTiers h.daaScore).length
  tier : p.tier ≠ h.pomTier

/-- The errors of the verifiers are about the witness. -/
theorem witnessScopedError_verifyWitness {p : PomProof} {t : PomTier} {e : RuleError}
    (he : R.verifyWitness h p t = .error e) : witnessScopedError e = true := by
  have hmap : ∀ {ε : Type} {f : ε → RuleError} {x : Except ε Unit},
      x.mapError f = .error e → ∃ e₀, e = f e₀ := by
    intro ε f x hx
    cases x with
    | error e₀ => exact ⟨e₀, (Except.error.inj hx).symm⟩
    | ok u => cases hx
  rw [Rules.verifyWitness] at he
  split_ifs at he
  all_goals
    obtain ⟨e₀, rfl⟩ := hmap he
    rfl

/-- **The errors of the possession check** past the gate: no witness, a forged tier, or an error
about the witness. -/
theorem checkPomProof_cases (hgate : R.pomV3Activation ≤ h.daaScore) {pomProof : Option PomProof}
    {e : RuleError} (he : R.checkPomProof h pomProof = .error e) :
    (pomProof = none ∧ e = .pomProofMissing) ∨
      ∃ p, pomProof = some p ∧ ((R.ForgesTier h p ∧ e = .pomDeclaredTierMismatch h.pomTier p.tier) ∨
        (¬ R.ForgesTier h p ∧ witnessScopedError e = true)) := by
  unfold Rules.checkPomProof at he
  split at he
  · cases he
  next hskip =>
  split at he
  · cases he
  next hpom =>
  cases pomProof with
  | none => exact Or.inl ⟨rfl, (Except.error.inj he).symm⟩
  | some p =>
    refine .inr ⟨p, rfl, ?_⟩
    dsimp only at he
    split at he
    · next hstate =>
      obtain rfl := Except.error.inj he
      exact .inr ⟨fun hf => hstate.2 (hf.finalState hstate.1), rfl⟩
    next hstate =>
    cases ht : (R.pomTiers h.daaScore)[p.tier]? with
    | none =>
      rw [ht] at he
      obtain rfl := Except.error.inj he
      exact .inr ⟨fun hf => absurd hf.known (getElem?_eq_none_iff.mp ht).not_gt, rfl⟩
    | some t =>
      simp only [ht] at he
      split at he
      · next htier =>
        refine .inl ⟨⟨⟨by simpa using hskip, not_not.mp hpom⟩, fun hlevel => ?_,
          (List.getElem?_eq_some_iff.mp ht).1, fun heq => htier.2 heq.symm⟩,
          (Except.error.inj he).symm⟩
        exact not_not.mp fun hne => hstate ⟨hlevel, hne⟩
      · next htier =>
        refine .inr ⟨fun hf => htier ⟨hgate, hf.tier.symm⟩, ?_⟩
        exact witnessScopedError_verifyWitness he

end Witness

/-! ### What a delivery does -/

/-- Bodies and tiers are stored for blocks with a body only. -/
def Node.WF (n : Node) : Prop :=
  ∀ h, n.hasBody h = false → n.transactions.get? h = none ∧ n.pomTiers.get? h = none

/-- The node after a delivered body: as before, after a failed validation, or with the body. -/
inductive Outcome (R : Rules) (n : Node) (b : Block) (skip : Bool) : Node → Prop
  | kept : Outcome R n b skip n
  | rejected (e : RuleError) (status : n.statuses.get? b.header.hash = some .headerOnly)
      (invalid : R.validateBody n.hasBody b false skip = .error e) :
      Outcome R n b skip (n.reject b.header.hash (R.witnessDigest b) e
        (decide (R.pomV3Activation ≤ b.header.daaScore)))
  | stored (mass : ℕ × ℕ × ℕ) (n' : Node)
      (status : n.statuses.get? b.header.hash = some .headerOnly)
      (valid : R.validateBody n.hasBody b false skip = .ok mass)
      (commit : n.commitBody b.header.hash b.transactions (R.attachments b skip).1
        (R.attachments b skip).2 = some n') : Outcome R n b skip n'

section Stores

variable {R : Rules} {n n' : Node} {b : Block} {skip : Bool} {pomProof : Option PomProof}
  {txs : List Transaction} {pomTier : Option ℕ} {h : Hash} {s : BlockStatus}

theorem Node.hasBody_of_get? (hs : n.statuses.get? h = some s) :
    n.hasBody h = s.hasBlockBody := by
  rw [Node.hasBody, hs]
  rfl

/-- A body of a block that has none can be stored. -/
theorem Node.WF.commitBody (hwf : n.WF) (hs : n.hasBody h = false) (txs : List Transaction)
    (pomProof : Option PomProof) (pomTier : Option ℕ) :
    ∃ n', n.commitBody h txs pomProof pomTier = some n' := by
  obtain ⟨htxs, htier⟩ := hwf h hs
  refine ⟨_, if_neg ?_⟩
  rw [contains_eq_false.mpr htxs, contains_eq_false.mpr htier]
  simp

/-- What storing a body writes. -/
structure CommittedBody (n n' : Node) (h : Hash) (txs : List Transaction)
    (pomProof : Option PomProof) (pomTier : Option ℕ) : Prop where
  statuses : n'.statuses = n.statuses.insert h .utxoPendingVerification
  headers : n'.headers = n.headers
  transactions : n'.transactions = n.transactions.insert h txs
  pomTier_other : ∀ k, k ≠ h → n'.pomTiers.get? k = n.pomTiers.get? k
  pomTier : ((pomProof.map PomProof.tier).or pomTier = none → n'.pomTiers = n.pomTiers) ∧
    ∀ t, (pomProof.map PomProof.tier).or pomTier = some t → n'.pomTiers.get? h = some t
  pomProof_other : ∀ k, k ≠ h → n'.pomProofs.get? k = n.pomProofs.get? k
  pomProof : n.pomProofs.get? h = none → ∀ p ∈ pomProof, n'.pomProofs.get? h = some p
  badWitnesses : n'.badWitnesses = n.badWitnesses

theorem committedBody_of_commitBody (hn' : n.commitBody h txs pomProof pomTier = some n') :
    CommittedBody n n' h txs pomProof pomTier := by
  obtain ⟨-, hn'⟩ := Option.ite_none_left_eq_some.mp hn'
  cases hn'
  refine ⟨rfl, rfl, rfl, fun k hk => ?_, ⟨fun ht => ?_, fun t ht => ?_⟩, fun k hk => ?_,
    fun hnone p hp => ?_, rfl⟩
  · dsimp only
    split
    · exact get?_insert_of_ne _ _ hk
    · rfl
  · simp only [ht]
  · simp only [ht]
    exact get?_insert_self _ _ _
  · split
    · split
      · rfl
      · exact get?_insert_of_ne _ _ hk
    · rfl
  · obtain rfl : pomProof = some p := hp
    simp only [contains_eq_false.mpr hnone]
    exact get?_insert_self _ _ _

theorem CommittedBody.hasBody {k : Hash} (hc : CommittedBody n n' h txs pomProof pomTier) :
    n'.hasBody k = if k = h then true else n.hasBody k := by
  rw [Node.hasBody, hc.statuses, get?_insert]
  split
  · rfl
  · rfl

theorem CommittedBody.wf (hc : CommittedBody n n' h txs pomProof pomTier) (hwf : n.WF) :
    n'.WF := by
  intro k hk
  rw [hc.hasBody] at hk
  split at hk
  · cases hk
  · next hne =>
    rw [hc.transactions, get?_insert_of_ne _ _ hne, hc.pomTier_other k hne]
    exact hwf k hk

/-- A failed validation changes the cache and the status of the block only. -/
theorem reject_eq (n : Node) (h : Hash) (digest : Option Hash) (e : RuleError) (gate : Bool) :
    (n.reject h digest e gate).headers = n.headers ∧
      (n.reject h digest e gate).transactions = n.transactions ∧
      (n.reject h digest e gate).pomProofs = n.pomProofs ∧
      (n.reject h digest e gate).pomTiers = n.pomTiers ∧
      (n.reject h digest e gate).statuses
        = (if marksBlockInvalid e gate then n.statuses.insert h .invalid else n.statuses) ∧
      (n.reject h digest e gate).badWitnesses = match digest with
        | some d => if witnessScopedError e then n.badWitnesses.insert h d else n.badWitnesses
        | none => n.badWitnesses := by
  unfold Node.reject
  cases digest with
  | none => cases marksBlockInvalid e gate <;> exact ⟨rfl, rfl, rfl, rfl, rfl, rfl⟩
  | some d =>
    cases marksBlockInvalid e gate <;> cases witnessScopedError e <;>
      exact ⟨rfl, rfl, rfl, rfl, rfl, rfl⟩

theorem reject_get?_of_ne {k : Hash} {e : RuleError} {gate : Bool} (hne : k ≠ h)
    (digest : Option Hash) :
    (n.reject h digest e gate).statuses.get? k = n.statuses.get? k := by
  rw [(reject_eq n h digest e gate).2.2.2.2.1]
  split
  · exact get?_insert_of_ne _ _ hne
  · rfl

/-- A rejected block had no body, the others keep their status. -/
theorem reject_hasBody {e : RuleError} {gate : Bool} (hs : n.statuses.get? h = some .headerOnly)
    (digest : Option Hash) (k : Hash) : (n.reject h digest e gate).hasBody k = n.hasBody k := by
  by_cases hk : k = h
  · rw [Node.hasBody, (reject_eq n h digest e gate).2.2.2.2.1, Node.hasBody, hk, hs]
    split
    · rw [get?_insert_self]
      rfl
    · rw [hs]
  · rw [Node.hasBody, reject_get?_of_ne hk, Node.hasBody]

/-- **A delivery of a block whose header is known** does not panic, and has one of three
outcomes. -/
theorem processBody_outcome (R : Rules) (skip : Bool) (hwf : n.WF)
    (hs : n.statuses.get? b.header.hash = some s) :
    ∃ n' r, R.processBody n b false skip = some (n', r) ∧ Outcome R n b skip n' := by
  rw [Rules.processBody, hs]
  cases s with
  | invalid => exact ⟨n, _, rfl, .kept⟩
  | utxoValid => exact ⟨n, _, rfl, .kept⟩
  | utxoPendingVerification => exact ⟨n, _, rfl, .kept⟩
  | disqualifiedFromChain => exact ⟨n, _, rfl, .kept⟩
  | headerOnly =>
    dsimp only
    split
    · exact ⟨n, _, rfl, .kept⟩
    · cases hv : R.validateBody n.hasBody b false skip with
      | error e => exact ⟨_, _, rfl, .rejected e hs hv⟩
      | ok mass =>
        obtain ⟨n', hn'⟩ := hwf.commitBody (n.hasBody_of_get? hs) b.transactions
          (R.attachments b skip).1 (R.attachments b skip).2
        refine ⟨n', .ok .utxoPendingVerification, ?_, .stored mass n' hs hv hn'⟩
        simp only [hn', Option.map_some]

theorem Outcome.wf (ho : Outcome R n b skip n') (hwf : n.WF) : n'.WF := by
  cases ho with
  | kept => exact hwf
  | rejected e hs hv =>
    intro k hk
    obtain ⟨-, htxs, -, htiers, -⟩ := reject_eq n b.header.hash (R.witnessDigest b) e
      (decide (R.pomV3Activation ≤ b.header.daaScore))
    rw [reject_hasBody hs] at hk
    rw [htxs, htiers]
    exact hwf k hk
  | stored mass n' hs hv hc => exact (committedBody_of_commitBody hc).wf hwf

/-! ### What the other steps do -/

theorem Node.receiveHeader_status (h : Header) :
    ∃ s, (n.receiveHeader h).statuses.get? h.hash = some s ∧
      (s = .headerOnly ∨ n.statuses.get? h.hash = some s) := by
  rw [Node.receiveHeader]
  split
  · next hknown =>
    obtain ⟨s, hs⟩ := contains_eq_true.mp hknown
    exact ⟨s, hs, Or.inr hs⟩
  · exact ⟨.headerOnly, get?_insert_self _ _ _, Or.inl rfl⟩

/-- A known block keeps its status when a header arrives. -/
theorem Node.receiveHeader_of_known {h : Header} {k : Hash} (hs : n.statuses.get? k = some s) :
    (n.receiveHeader h).statuses.get? k = some s := by
  rw [Node.receiveHeader]
  split
  · exact hs
  · next hnew =>
    have hne : k ≠ h.hash := by
      rintro rfl
      exact hnew (contains_eq_true.mpr ⟨s, hs⟩)
    exact (get?_insert_of_ne _ _ hne).trans hs

/-- A header changes neither what is stored of bodies nor the cache. -/
theorem Node.receiveHeader_stores (h : Header) :
    (n.receiveHeader h).transactions = n.transactions ∧
      (n.receiveHeader h).pomProofs = n.pomProofs ∧ (n.receiveHeader h).pomTiers = n.pomTiers ∧
      (n.receiveHeader h).badWitnesses = n.badWitnesses := by
  rw [Node.receiveHeader]
  split <;> exact ⟨rfl, rfl, rfl, rfl⟩

theorem Node.receiveHeader_hasBody (h : Header) (k : Hash) :
    (n.receiveHeader h).hasBody k = n.hasBody k := by
  rw [Node.receiveHeader]
  split
  · rfl
  · next hnew =>
    have hnone : n.statuses.get? h.hash = none := by
      rwa [Bool.not_eq_true, contains_eq_false] at hnew
    rw [Node.hasBody, Node.hasBody, get?_insert]
    split
    · next hk =>
      rw [hk, hnone]
      rfl
    · rfl

theorem Node.WF.receiveHeader (hwf : n.WF) (h : Header) : (n.receiveHeader h).WF := by
  intro k hk
  obtain ⟨htxs, -, htiers, -⟩ := n.receiveHeader_stores h
  rw [Node.receiveHeader_hasBody] at hk
  rw [htxs, htiers]
  exact hwf k hk

theorem adoptPomProof_eq (h : Hash) (proof : PomProof) :
    ∃ proofs, (R.adoptPomProof n h proof).1 = { n with pomProofs := proofs } ∧
      ∀ k, k ≠ h → proofs.get? k = n.pomProofs.get? k := by
  rw [Rules.adoptPomProof]
  split
  · exact ⟨n.pomProofs, rfl, fun _ _ => rfl⟩
  · split
    · exact ⟨n.pomProofs, rfl, fun _ _ => rfl⟩
    · split
      · exact ⟨n.pomProofs, rfl, fun _ _ => rfl⟩
      · exact ⟨_, rfl, fun k hk => get?_insert_of_ne _ _ hk⟩

theorem Node.resolve_eq (h : Hash) (s : BlockStatus) :
    n.resolve h s = n ∨ (n.hasBody h = true ∧ s.hasBlockBody = true ∧
      n.resolve h s = { n with statuses := n.statuses.insert h s }) := by
  rw [Node.resolve]
  split
  · next hb =>
    obtain ⟨hbody, hs⟩ := (Bool.and_eq_true _ _).mp hb
    exact .inr ⟨hbody, hs, rfl⟩
  · exact .inl rfl

theorem Node.resolve_hasBody (h k : Hash) (s : BlockStatus) :
    (n.resolve h s).hasBody k = n.hasBody k := by
  rcases n.resolve_eq h s with heq | ⟨hbody, hs, heq⟩
  · rw [heq]
  · rw [heq, Node.hasBody, get?_insert]
    split
    · next hk =>
      rw [hk, hbody]
      exact hs
    · rfl

/-- No step panics, and every step keeps the stores in shape. -/
theorem step_wf (hwf : n.WF) (s : Step) : ∃ n', R.step n s = some n' ∧ n'.WF := by
  cases s with
  | deliver b ibd =>
    obtain ⟨status, hs, -⟩ := n.receiveHeader_status b.header
    obtain ⟨n', r, hn', ho⟩ := processBody_outcome R ibd (hwf.receiveHeader b.header) hs
    refine ⟨n', ?_, ho.wf (hwf.receiveHeader b.header)⟩
    rw [Rules.step, hn']
    rfl
  | adopt h proof =>
    obtain ⟨proofs, heq, -⟩ := adoptPomProof_eq (R := R) (n := n) h proof
    refine ⟨_, rfl, ?_⟩
    rw [heq]
    exact hwf
  | resolve h s =>
    refine ⟨_, rfl, fun k hk => ?_⟩
    rw [Node.resolve_hasBody] at hk
    rcases n.resolve_eq h s with heq | ⟨-, -, heq⟩
    · rw [heq]
      exact hwf k hk
    · rw [heq]
      exact hwf k hk

end Stores

end Body

end KeryxNode
