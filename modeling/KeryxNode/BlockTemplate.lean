import KeryxNode.AdmissionExact
import KeryxNode.CoinbaseSplit

/-!
# Block Templates

A miner's template is built from transactions handed out by a selector
(`build_block_template` of `consensus/src/pipeline/virtual_processor/processor.rs`). Each batch is
validated against the virtual state; invalid transactions are reported back, and further batches
are asked for until one has no rejections. The coinbase of the miner comes first.

The selector is a state machine. The loop may ask it for any number of batches, so the builder has
a bound on them; a run that does not end within it, or that stops the program, has no result.

## Main results

* `template_passes_iff`: exactly when a template made from admitted transactions passes the
  transaction rules of a block.
-/

namespace KeryxNode

open List

namespace Tx

/-! ### Selectors and templates -/

/-- A source of transactions for a template. -/
structure TemplateTransactionSelector (σ : Type) where
  selectTransactions : σ → List Transaction × σ
  rejectSelection : σ → Hash → σ
  isSuccessful : σ → Bool

inductive TemplateBuildMode where
  | standard
  | infallible
  deriving DecidableEq

/-- What a template reads of the virtual state. -/
structure VirtualState where
  daaScore : ℕ
  pastMedianTime : ℕ
  ghostdagData : Ghostdag.GhostdagData
  mergesetRewards : OrdMap Hash BlockRewardData
  mergesetNonDaa : List Hash

/-- The multipliers, suspensions and mints of a coinbase. -/
structure RewardInputs where
  tierBpsByBlock : OrdMap Hash ℕ
  ratioBpsByBlock : OrdMap Hash ℕ
  suspendedBlues : List Hash
  rewardMints : List (ScriptPublicKey × ℕ)

/-- A template; of the header, the score. The commitment to the service state, for which the ledger
snapshot of the pruning point may be missing, is treated in `KeryxNode.LedgerSnapshots`. -/
structure BlockTemplate where
  transactions : List Transaction
  daaScore : ℕ
  minerData : MinerData
  hasRedReward : Bool
  redRewardOutputIndex : Option ℕ
  calculatedFees : List ℕ

/-- The selection was not successful; the rejections in the order they were found. -/
inductive TemplateError where
  | invalidTransactionsInNewBlock (invalid : List (Hash × TxRuleError))
  deriving DecidableEq

/-- The running state of a selection. -/
structure Selection (σ : Type) where
  txs : List Transaction
  calculatedFees : List ℕ := []
  invalidTransactions : List (Hash × TxRuleError) := []
  selector : σ

namespace VirtualProcessor

variable (N : VirtualProcessor) {σ : Type} (S : TemplateTransactionSelector σ)
  (state : VirtualState) (view : UtxoView) {tx : Transaction} {batch : List Transaction}
  {daaScore fuel : ℕ} {s : σ}

/-- A handed-out transaction against the virtual state; the result is its fee. -/
def validateBlockTemplateTransaction (tx : Transaction) : Except (Stop TxRuleError) ℕ := do
  orReject (TransactionValidator.validateTxInHeaderContextWithArgs tx state.daaScore
    state.pastMedianTime)
  let validated ← N.validateTransactionInUtxoContext tx view state.daaScore .full
  return validated.calculatedFee

/-- The verdict on a handed-out transaction, unless the program stops. -/
def templateVerdict (tx : Transaction) : Option (Except TxRuleError ℕ) :=
  match N.validateBlockTemplateTransaction state view tx with
  | .ok fee => some (.ok fee)
  | .error (.rejected e) => some (.error e)
  | .error .panicked => none

/-- Records a verdict: an invalid transaction is reported back, the fee of a valid one kept. In
later batches (`push`) the valid transaction itself is kept as well. -/
def recordVerdict (push : Bool) (s : Selection σ) (p : Transaction × Except TxRuleError ℕ) :
    Selection σ :=
  match p.2 with
  | .error e =>
    { s with
      invalidTransactions := s.invalidTransactions ++ [(N.txId p.1, e)]
      selector := S.rejectSelection s.selector (N.txId p.1) }
  | .ok fee =>
    { s with
      txs := if push then s.txs ++ [p.1] else s.txs
      calculatedFees := s.calculatedFees ++ [fee] }

def isRejection (verdict : Except TxRuleError ℕ) : Bool :=
  match verdict with
  | .error _ => true
  | .ok _ => false

/-- The first batch, and whether it has rejections. It is kept as a whole and then freed of the
identifiers that were rejected. -/
def selectFirst (s : σ) : Option (Selection σ × Bool) := do
  let (batch, selector) := S.selectTransactions s
  let verdicts ← batch.mapM (N.templateVerdict state view)
  let selection := (batch.zip verdicts).foldl (N.recordVerdict S false) { txs := batch, selector }
  let hasRejections := !selection.invalidTransactions.isEmpty
  some ({ selection with
    txs := if hasRejections then
        batch.filter fun tx => decide (N.txId tx ∉ selection.invalidTransactions.map Prod.fst)
      else batch }, hasRejections)

/-- Further batches, up to a bound, until one has no rejections. -/
def selectMore : ℕ → Selection σ → Option (Selection σ)
  | 0, _ => none
  | fuel + 1, s => do
    let (batch, selector) := S.selectTransactions s.selector
    let verdicts ← batch.mapM (N.templateVerdict state view)
    let s := (batch.zip verdicts).foldl (N.recordVerdict S true) { s with selector }
    if verdicts.any isRejection then selectMore fuel s else some s

/-- All batches. -/
def selectAll (fuel : ℕ) (s : σ) : Option (Selection σ) := do
  let (first, hasRejections) ← N.selectFirst S state view s
  if hasRejections then N.selectMore S state view fuel first else some first

/-- What the coinbase of a template is made from. -/
def templateCall (rewards : RewardInputs) (minerData : MinerData) : CoinbaseCall where
  daaScore := state.daaScore
  minerData
  ghostdagData := state.ghostdagData
  mergesetRewards := state.mergesetRewards
  mergesetNonDaa := state.mergesetNonDaa
  tierBpsByBlock := rewards.tierBpsByBlock
  ratioBpsByBlock := rewards.ratioBpsByBlock
  suspendedBlues := rewards.suspendedBlues
  rewardMints := rewards.rewardMints

/-- The template for a selection. A coinbase that cannot be built stops the program. -/
def buildBlockTemplateFromVirtualState (C : CoinbaseManager) (rewards : RewardInputs)
    (minerData : MinerData) (txs : List Transaction) (calculatedFees : List ℕ) :
    Option BlockTemplate :=
  match C.expectedCoinbaseTransaction (templateCall state rewards minerData) with
  | some (.ok coinbase) =>
    some {
      transactions := coinbase.tx :: txs
      daaScore := state.daaScore
      minerData
      hasRedReward := coinbase.hasRedReward
      redRewardOutputIndex := coinbase.redRewardOutputIndex
      calculatedFees }
  | _ => none

/-- A template for a miner. -/
def buildBlockTemplate (C : CoinbaseManager) (rewards : RewardInputs) (minerData : MinerData)
    (mode : TemplateBuildMode) (fuel : ℕ) (s : σ) : Option (Except TemplateError BlockTemplate) :=
  (N.selectAll S state view fuel s).bind fun selection =>
    if mode = .standard ∧ S.isSuccessful selection.selector = false then
      some (.error (.invalidTransactionsInNewBlock selection.invalidTransactions))
    else
      (buildBlockTemplateFromVirtualState state C rewards minerData selection.txs
        selection.calculatedFees).map Except.ok

/-! ### What a selection keeps -/

/-- A handed-out transaction is valid against the virtual state. -/
def templateValid (tx : Transaction) : Bool :=
  match N.templateVerdict state view tx with
  | some (.ok _) => true
  | _ => false

/-- The selector after the invalid transactions of a batch were reported back. -/
def rejectInvalid (valid : Transaction → Bool) (s : σ) (batch : List Transaction) : σ :=
  batch.foldl (fun s tx => if valid tx then s else S.rejectSelection s (N.txId tx)) s

/-- The batches a selector hands out, up to a bound: one after the other as long as the last one
has an invalid transaction. -/
def handedOut (valid : Transaction → Bool) : ℕ → σ → List (List Transaction)
  | 0, _ => []
  | fuel + 1, s =>
    (S.selectTransactions s).1 :: if (S.selectTransactions s).1.all valid then []
      else handedOut valid fuel
        (N.rejectInvalid S valid (S.selectTransactions s).2 (S.selectTransactions s).1)

/-- The transactions that survive of some batches: of the first one those that share no identifier
with an invalid one, of the others the valid ones. -/
def surviving (valid : Transaction → Bool) : List (List Transaction) → List Transaction
  | [] => []
  | first :: later =>
    (first.filter fun tx => first.all fun t => decide (N.txId t = N.txId tx) → valid t) ++
      later.flatten.filter valid

variable {N S state view}

/-- The verdicts on a batch, recorded one by one. -/
theorem foldl_recordVerdict (push : Bool) {verdicts : List (Except TxRuleError ℕ)}
    (h : List.Forall₂ (fun tx r => N.templateVerdict state view tx = some r) batch verdicts)
    (s : Selection σ) :
    ((batch.zip verdicts).foldl (N.recordVerdict S push) s).selector
        = N.rejectInvalid S (N.templateValid state view) s.selector batch ∧
      ((batch.zip verdicts).foldl (N.recordVerdict S push) s).invalidTransactions.map Prod.fst
        = s.invalidTransactions.map Prod.fst ++
          (batch.filter fun tx => !N.templateValid state view tx).map N.txId ∧
      ((batch.zip verdicts).foldl (N.recordVerdict S push) s).txs
        = s.txs ++ if push then batch.filter (N.templateValid state view) else [] := by
  induction h generalizing s with
  | nil => cases push <;> simp [rejectInvalid]
  | @cons tx verdict batch verdicts hverdict _ ih =>
    rw [zip_cons_cons, foldl_cons]
    obtain ⟨hselector, hinvalid, htxs⟩ := ih (N.recordVerdict S push s (tx, verdict))
    rw [hselector, hinvalid, htxs]
    cases verdict with
    | error e =>
      have hvalid : N.templateValid state view tx = false := by rw [templateValid, hverdict]
      refine ⟨?_, ?_, ?_⟩
      · simp [rejectInvalid, recordVerdict, hvalid]
      · simp [recordVerdict, hvalid]
      · simp [recordVerdict, hvalid]
    | ok fee =>
      have hvalid : N.templateValid state view tx = true := by rw [templateValid, hverdict]
      refine ⟨?_, ?_, ?_⟩
      · simp [rejectInvalid, recordVerdict, hvalid]
      · simp [recordVerdict, hvalid]
      · cases push <;> simp [recordVerdict, hvalid]

/-- A batch has a rejection if not all of it is valid. -/
theorem any_isRejection {verdicts : List (Except TxRuleError ℕ)}
    (h : List.Forall₂ (fun tx r => N.templateVerdict state view tx = some r) batch verdicts) :
    verdicts.any isRejection = !batch.all (N.templateValid state view) := by
  induction h with
  | nil => rfl
  | @cons tx verdict batch verdicts hverdict _ ih =>
    rw [any_cons, all_cons, ih]
    rw [templateValid, hverdict]
    cases verdict <;> rfl

/-- **Further batches**: the valid transactions of the batches handed out are added. -/
theorem selectMore_txs {s out : Selection σ} (h : N.selectMore S state view fuel s = some out) :
    out.txs = s.txs ++ (N.handedOut S (N.templateValid state view) fuel s.selector).flatten.filter
      (N.templateValid state view) := by
  induction fuel generalizing s with
  | zero => cases h
  | succ fuel ih =>
    simp only [selectMore, bind_eq_some_iff] at h
    obtain ⟨verdicts, hverdicts, h⟩ := h
    have hverdicts := mapM_eq_some.mp hverdicts
    obtain ⟨hselector, -, htxs⟩ := foldl_recordVerdict (S := S) true hverdicts
      { s with selector := (S.selectTransactions s.selector).2 }
    rw [any_isRejection hverdicts] at h
    rw [handedOut, flatten_cons, filter_append]
    cases hall : (S.selectTransactions s.selector).1.all (N.templateValid state view) with
    | true =>
      rw [hall] at h
      cases h
      rw [htxs]
      simp
    | false =>
      rw [hall] at h
      rw [ih h, hselector, htxs]
      simp

/-- The first batch: what shares no identifier with an invalid transaction is kept. -/
theorem selectFirst_eq_some {first : Selection σ} {hasRejections : Bool}
    (h : N.selectFirst S state view s = some (first, hasRejections)) :
    first.txs = N.surviving (N.templateValid state view) [(S.selectTransactions s).1] ∧
      first.selector = N.rejectInvalid S (N.templateValid state view) (S.selectTransactions s).2
        (S.selectTransactions s).1 ∧
      hasRejections = !(S.selectTransactions s).1.all (N.templateValid state view) := by
  simp only [selectFirst, bind_eq_some_iff] at h
  obtain ⟨verdicts, hverdicts, h⟩ := h
  have hverdicts := mapM_eq_some.mp hverdicts
  obtain ⟨hselector, hinvalid, -⟩ := foldl_recordVerdict (S := S) false hverdicts
    { txs := (S.selectTransactions s).1, selector := (S.selectTransactions s).2 }
  generalize hrun : ((S.selectTransactions s).1.zip verdicts).foldl (N.recordVerdict S false)
    { txs := (S.selectTransactions s).1, selector := (S.selectTransactions s).2 } = run at *
  generalize (S.selectTransactions s).1 = batch at *
  rw [map_nil, nil_append] at hinvalid
  have hrejections : (!run.invalidTransactions.isEmpty)
      = !batch.all (N.templateValid state view) := by
    rw [← isEmpty_map (f := Prod.fst), hinvalid, isEmpty_map]
    congr 1
    rw [Bool.eq_iff_iff, List.isEmpty_iff, List.all_eq_true]
    simp
  obtain ⟨rfl, rfl⟩ := Prod.mk.inj (Option.some.inj h)
  refine ⟨?_, hselector, hrejections⟩
  rw [surviving, flatten_nil, filter_nil, append_nil, hrejections, hinvalid]
  cases hall : batch.all (N.templateValid state view) with
  | true =>
    -- nothing was rejected, so the filter keeps the whole batch
    refine (filter_eq_self.mpr fun tx _ => ?_).symm
    rw [all_eq_true] at hall ⊢
    exact fun t ht => decide_eq_true fun _ => hall t ht
  | false =>
    refine filter_congr fun tx _ => ?_
    rw [Bool.eq_iff_iff, all_eq_true]
    simp only [mem_map, mem_filter, Bool.not_eq_true', not_exists, not_and, and_imp,
      decide_eq_true_eq]
    constructor
    · intro hnone t ht hid
      by_contra hinvalid
      exact hnone t ht (Bool.not_eq_true _ ▸ hinvalid) hid
    · intro hvalid t ht hinvalid hid
      rw [hvalid t ht hid] at hinvalid
      cases hinvalid

/-- **The transactions of a selection** are those that survive of the batches handed out. -/
theorem selectAll_txs {out : Selection σ} (h : N.selectAll S state view fuel s = some out) :
    out.txs = N.surviving (N.templateValid state view)
      (N.handedOut S (N.templateValid state view) (fuel + 1) s) := by
  rw [selectAll, bind_eq_some_iff] at h
  obtain ⟨⟨first, hasRejections⟩, hfirst, h⟩ := h
  obtain ⟨htxs, hselector, rfl⟩ := selectFirst_eq_some hfirst
  rw [handedOut]
  cases hall : (S.selectTransactions s).1.all (N.templateValid state view) with
  | true =>
    rw [hall] at h
    cases h
    exact htxs
  | false =>
    rw [hall] at h
    rw [selectMore_txs h, htxs, hselector, surviving, flatten_nil,
      filter_nil, append_nil]
    rfl

variable {C : CoinbaseManager} {rewards : RewardInputs} {minerData : MinerData}
  {mode : TemplateBuildMode}

/-- The coinbase of a template carries the payload of its miner. -/
theorem payload_expectedCoinbaseTransaction {c : CoinbaseCall} {t : CoinbaseTransactionTemplate}
    (h : C.expectedCoinbaseTransaction c = some (.ok t)) :
    C.serializeCoinbasePayload c.ghostdagData.blueScore (C.calcBlockSubsidy c.daaScore) c.minerData
      = .ok t.tx.payload := by
  simp only [CoinbaseManager.expectedCoinbaseTransaction, bind_eq_some_iff] at h
  obtain ⟨_, -, _, -, _, -, h⟩ := h
  obtain ⟨payload, hpayload, rfl⟩ := map_eq_ok.mp (Option.some.inj h)
  exact hpayload

/-- **The transactions of a template**: the coinbase of the miner, then what survives of the
batches handed out. -/
theorem buildBlockTemplate_transactions {t : BlockTemplate}
    (h : N.buildBlockTemplate S state view C rewards minerData mode fuel s = some (.ok t)) :
    ∃ coinbase, t.transactions = coinbase :: N.surviving (N.templateValid state view)
        (N.handedOut S (N.templateValid state view) (fuel + 1) s) ∧
      C.serializeCoinbasePayload state.ghostdagData.blueScore (C.calcBlockSubsidy state.daaScore)
        minerData = .ok coinbase.payload ∧ t.daaScore = state.daaScore := by
  rw [buildBlockTemplate, Option.bind_eq_some_iff] at h
  obtain ⟨selection, hselection, h⟩ := h
  split at h
  · cases h
  · obtain ⟨t', ht', h⟩ := Option.map_eq_some_iff.mp h
    cases h
    rw [buildBlockTemplateFromVirtualState] at ht'
    split at ht'
    · next coinbase hcoinbase =>
      cases ht'
      refine ⟨coinbase.tx, ?_, payload_expectedCoinbaseTransaction hcoinbase, rfl⟩
      rw [← selectAll_txs hselection]
    · cases ht'

/-! ### Templates of admitted transactions -/

/-- A surviving transaction is valid and was handed out. -/
theorem mem_surviving {valid : Transaction → Bool} {batches : List (List Transaction)}
    (h : tx ∈ N.surviving valid batches) :
    valid tx = true ∧ ∃ batch ∈ batches, tx ∈ batch := by
  cases batches with
  | nil => cases h
  | cons first later =>
    rw [surviving, mem_append, mem_filter, mem_filter, mem_flatten] at h
    rcases h with ⟨hfirst, hall⟩ | ⟨⟨batch, hbatch, htx⟩, hvalid⟩
    · have hself := all_eq_true.mp hall tx hfirst
      exact ⟨of_decide_eq_true hself (decide_eq_true rfl), first, mem_cons_self, hfirst⟩
    · exact ⟨hvalid, batch, mem_cons_of_mem _ hbatch, htx⟩

/-- A valid transaction of a template is valid in a block over the same view. -/
theorem validate_of_templateValid (h : N.templateValid state view tx = true) :
    ∃ v, N.validateTransactionInUtxoContext tx view state.daaScore .full = .ok v := by
  rw [templateValid] at h
  cases hverdict : N.validateBlockTemplateTransaction state view tx with
  | error e =>
    cases e with
    | panicked => rw [templateVerdict, hverdict] at h; cases h
    | rejected e => rw [templateVerdict, hverdict] at h; cases h
  | ok fee =>
    rw [validateBlockTemplateTransaction, bind_unit_eq_ok] at hverdict
    obtain ⟨v, hv, -⟩ := bind_eq_ok hverdict.2
    exact ⟨v, hv⟩

/-- Among some transactions, equal identifiers mean equal coins and outputs. -/
def IdsFaithful (N : VirtualProcessor) (txs : List Transaction) : Prop :=
  ∀ a ∈ txs, ∀ b ∈ txs, N.txId a = N.txId b →
    a.inputs.map TransactionInput.previousOutpoint
        = b.inputs.map TransactionInput.previousOutpoint ∧
      a.outputs = b.outputs

/-- The worth of the coins depends on the outpoints only. -/
theorem viewAmount_congr {a b : Transaction} (h : a.inputs.map TransactionInput.previousOutpoint
      = b.inputs.map TransactionInput.previousOutpoint) :
    viewAmount view a = viewAmount view b := by
  have hview : ∀ tx : Transaction, viewAmount view tx
      = ((tx.inputs.map TransactionInput.previousOutpoint).map fun o =>
        ((view o).map UtxoEntry.amount).getD 0).sum := by
    intro tx
    rw [map_map]
    rfl
  rw [hview a, hview b, h]

/-- The fee the block finds for the identifier of a valid transaction is its own. -/
theorem calculatedFeeOf_eq {txs : List Transaction} {validated : List ValidatedTransaction}
    (h : List.Forall₂ (fun tx v =>
      N.validateTransactionInUtxoContext tx view daaScore .full = .ok v) txs validated)
    (hids : N.IdsFaithful txs) (htx : tx ∈ txs) :
    N.calculatedFeeOf validated (N.txId tx)
      = some (viewAmount view tx - totalValue tx.outputs) := by
  have hall : validated.map ValidatedTransaction.tx = txs ∧ ∀ v ∈ validated,
      v.calculatedFee = viewAmount view v.tx - totalValue v.tx.outputs := by
    clear hids htx
    induction h with
    | nil => exact ⟨rfl, nofun⟩
    | cons hv _ ih =>
      obtain ⟨hvtx, hfee⟩ := validateTransaction_fee hv
      exact ⟨by rw [map_cons, hvtx, ih.1], forall_mem_cons.mpr ⟨hfee, ih.2⟩⟩
  obtain ⟨rfl, hfees⟩ := hall
  obtain ⟨v, hv, rfl⟩ := mem_map.mp htx
  rw [calculatedFeeOf]
  cases hfind : validated.reverse.find? fun v' => decide (N.txId v'.tx = N.txId v.tx) with
  | none =>
    have hnone := find?_eq_none.mp hfind v (mem_reverse.mpr hv)
    simp at hnone
  | some v' =>
    have hmem : v' ∈ validated := mem_reverse.mp (mem_of_find?_eq_some hfind)
    have hid : N.txId v'.tx = N.txId v.tx := by simpa using find?_some hfind
    obtain ⟨hcoins, houtputs⟩ := hids v'.tx (mem_map_of_mem hmem) v.tx htx hid
    rw [Option.map_some, hfees v' hmem, viewAmount_congr hcoins, houtputs]

/-- A transaction was admitted at a score, against whatever view and time. -/
def Admitted (N : VirtualProcessor) (daaScore : ℕ) (tx : Transaction) : Prop :=
  ∃ m m' view pastMedianTime args,
    N.validateMempoolTransactionImpl m view daaScore pastMedianTime args = .ok m' ∧ m'.tx = tx

/-- The gates and the payload rules hold for an admitted transaction. -/
theorem Admitted.rules (h : N.Admitted daaScore tx) :
    N.checkAdmissionGates tx daaScore = .ok () ∧
      (N.modelCapEnforcementActivation ≤ daaScore →
        PayloadRulesHold tx (N.aiRewardMinimums daaScore) (N.rewardRoutingActive daaScore)) := by
  obtain ⟨m, m', view, pastMedianTime, args, hadmitted, rfl⟩ := h
  obtain ⟨hgates, hpayload, hcontext⟩ := validateMempoolImpl_eq_ok hadmitted
  obtain ⟨_, storageMass, _, _, htx, -⟩ := validateMempool_eq_ok hcontext
  rw [htx]
  exact ⟨hgates, hpayload⟩

/-- **Templates of admitted transactions**: a template passes the transaction rules of a block over
the virtual state exactly if every request in it pays its priority fee and every response in it
answers for a model the miner declares, if the miner declares any. -/
theorem template_passes_iff {fuel : ℕ} {s : σ} {t : BlockTemplate} {kept : List Transaction}
    (hbuild : N.buildBlockTemplate S state view C rewards minerData mode fuel s = some (.ok t))
    (hkept : kept = N.surviving (N.templateValid state view)
      (N.handedOut S (N.templateValid state view) (fuel + 1) s))
    (hadmitted : ∀ batch ∈ N.handedOut S (N.templateValid state view) (fuel + 1) s,
      ∀ tx ∈ batch, N.Admitted state.daaScore tx)
    (hids : N.IdsFaithful kept) :
    N.verifyTransactions t.transactions view t.daaScore = .ok () ↔
      (∀ tx ∈ kept, N.FeeCovered view state.daaScore tx) ∧
      (N.modelCapEnforcementActivation ≤ state.daaScore → ∀ payload,
        C.serializeCoinbasePayload state.ghostdagData.blueScore (C.calcBlockSubsidy state.daaScore)
          minerData = .ok payload → N.CapsCover (parseAiCaps payload) kept) := by
  obtain ⟨coinbase, htxs, hpayload, hscore⟩ := buildBlockTemplate_transactions hbuild
  rw [← hkept] at htxs
  have hrules : ∀ tx ∈ kept, N.templateValid state view tx = true ∧
      N.Admitted state.daaScore tx := by
    intro tx htx
    obtain ⟨hvalid, batch, hbatch, hmem⟩ := mem_surviving (hkept ▸ htx)
    exact ⟨hvalid, hadmitted batch hbatch tx hmem⟩
  obtain ⟨validated, hvalidated⟩ := exists_forall₂ fun tx htx =>
    validate_of_templateValid (hrules tx htx).1
  rw [htxs, hscore, verifyTransactions_eq_ok]
  constructor
  · rintro ⟨-, hcaps, validated', hvalidated', hcovers⟩
    refine ⟨fun tx htx hactive req hreq => ?_, fun hactive payload hserialized => ?_⟩
    · exact hcovers hactive tx htx req hreq _ (calculatedFeeOf_eq hvalidated' hids htx)
    · obtain rfl := Except.ok.inj (hpayload.symm.trans hserialized)
      exact (hcaps hactive).1
  · rintro ⟨hcovered, hcaps⟩
    refine ⟨fun tx htx => (hrules tx htx).2.rules.1, fun hactive => ⟨hcaps hactive _ hpayload, ?_⟩,
      validated, hvalidated, fun hactive tx htx req hreq fee hfee => ?_⟩
    · exact fun tx htx => (hrules tx htx).2.rules.2 hactive
    · rw [calculatedFeeOf_eq hvalidated hids htx] at hfee
      exact Option.some.inj hfee ▸ hcovered tx htx hactive req hreq

/-! ### Two templates that disqualify themselves -/

/-- A selector that hands out one batch. -/
def oneBatch (batch : List Transaction) : TemplateTransactionSelector Bool where
  selectTransactions := fun asked => (if asked then [] else batch, true)
  rejectSelection := fun asked _ => asked
  isSuccessful := fun _ => true

/-- A virtual state at score 10 with nothing to merge. -/
def emptyState : VirtualState where
  daaScore := 10
  pastMedianTime := 0
  ghostdagData := { selectedParent := 0, mergesetBlues := [], bluesAnticoneSizes := .empty }
  mergesetRewards := OrdMap.empty
  mergesetNonDaa := []

def noRewards : RewardInputs := ⟨OrdMap.empty, OrdMap.empty, [], []⟩

/-- The template of a miner with this free data for one batch over `coinView`. -/
def smallTemplate (extraData : List UInt8) (batch : List Transaction) :
    Option (Except TemplateError BlockTemplate) :=
  openProcessor.buildBlockTemplate (oneBatch batch) emptyState coinView
    CoinbaseManager.smallManager noRewards ⟨⟨0, [3]⟩, extraData⟩ .standard 0 false

/-- The coinbase of such a template. -/
def smallCoinbase (extraData : List UInt8) : Transaction where
  subnetworkId := .coinbase
  payload := ByteCodec.leBytes 8 0 ++ ByteCodec.leBytes 8 1000 ++ ByteCodec.leBytes 2 0 ++
    ByteCodec.leBytes 1 1 ++ [3] ++ extraData

/-- Such a template has the whole batch, and the rules of a block say this of it. -/
theorem smallTemplate_verdict {extraData : List UInt8} {verdict : Except (Stop BlockRuleError) Unit}
    (h : (smallTemplate extraData batch).map (Except.map fun t => (t.transactions, t.daaScore))
      = some (.ok (smallCoinbase extraData :: batch, 10)))
    (hverdict : openProcessor.verifyTransactions (smallCoinbase extraData :: batch) coinView 10
      = verdict) :
    ∃ t, smallTemplate extraData batch = some (.ok t) ∧
      openProcessor.verifyTransactions t.transactions coinView t.daaScore = verdict := by
  obtain ⟨r, hr, hmap⟩ := Option.map_eq_some_iff.mp h
  obtain ⟨t, rfl, ht⟩ := map_eq_ok.mp hmap
  obtain ⟨htxs, hscore⟩ := Prod.mk.inj ht
  exact ⟨t, hr, by rw [htxs, hscore, hverdict]⟩

/-- The request of `vaultRequest` that pays nothing, as admitted. -/
def unpaidRequest : Transaction := { (vaultRequest 100000000).tx with mass := 15000 }

/-- The one that pays what it promises. -/
def paidRequest : Transaction := { (vaultRequest 70000000).tx with mass := 19285 }

/-- A response to the request, without inputs and outputs. -/
def emptyResponse : MutableTransaction where
  tx := { subnetworkId := .aiResponse
          payload := AiResponsePayload.serialize
            ⟨openProcessor.blake2b paidRequest.payload, 0, List.replicate 34 0, 0, none⟩ }
  entries := []
  aligned := inputless_aligned

theorem emptyResponse_admitted :
    (openProcessor.validateMempoolTransactionImpl emptyResponse coinView 10 0 {}).map
        MutableTransaction.tx = .ok emptyResponse.tx := by
  decide +kernel

/-- Free data that declares another model than the requested one. -/
def otherModelCaps : List UInt8 :=
  aiCapMarker ++ (List.replicate 32 [0x30, 0x32]).flatten

/-- A transaction whose admission was run was admitted. -/
theorem admitted_of_run {m : MutableTransaction}
    (h : (N.validateMempoolTransactionImpl m view daaScore 0 {}).map MutableTransaction.tx
      = .ok tx) : N.Admitted daaScore tx := by
  obtain ⟨m', hadmitted, htx⟩ := map_eq_ok.mp h
  exact ⟨m, m', view, 0, {}, hadmitted, htx⟩

/-- Two templates of admitted transactions that the rules of a block refuse: one with a request
that does not pay its priority fee, one of a miner that declares a model, with a request for
another model and its response. -/
theorem templates_disqualified :
    (openProcessor.Admitted 10 unpaidRequest ∧
      ∃ t, smallTemplate [] [unpaidRequest] = some (.ok t) ∧
        openProcessor.verifyTransactions t.transactions coinView t.daaScore
          = .error (.rejected (.aiRequest (.feeBelowInferenceReward 0 0 30000000)))) ∧
      openProcessor.Admitted 10 paidRequest ∧ openProcessor.Admitted 10 emptyResponse.tx ∧
      ∃ t, smallTemplate otherModelCaps [paidRequest, emptyResponse.tx] = some (.ok t) ∧
        openProcessor.verifyTransactions t.transactions coinView t.daaScore
          = .error (.rejected (.aiResponseModelCapMissing 0 (List.replicate 32 1))) := by
  refine ⟨⟨admitted_of_run vaultRequest_admitted, ?_⟩, admitted_of_run paidRequest_admitted,
    admitted_of_run emptyResponse_admitted, ?_⟩
  · exact smallTemplate_verdict (by decide +kernel) (by decide +kernel)
  · exact smallTemplate_verdict (by decide +kernel) (by decide +kernel)

/-- A template with the request that pays what it promises passes. -/
theorem template_passes_paid :
    ∃ t, smallTemplate [] [paidRequest] = some (.ok t) ∧
      openProcessor.verifyTransactions t.transactions coinView t.daaScore = .ok () := by
  obtain ⟨t, ht, -⟩ : ∃ t, smallTemplate [] [paidRequest] = some (.ok t) ∧ _ :=
    smallTemplate_verdict (by decide +kernel) rfl
  have hbatches : openProcessor.handedOut (oneBatch [paidRequest])
      (openProcessor.templateValid emptyState coinView) (0 + 1) false = [[paidRequest]] := by
    decide +kernel
  refine ⟨t, ht, (template_passes_iff ht (show [paidRequest] = _ from ?_) ?_ ?_).mpr
    ⟨?_, fun _ payload hpayload => ?_⟩⟩
  · rw [hbatches]
    decide +kernel
  · simp only [hbatches, mem_singleton, forall_eq]
    exact admitted_of_run paidRequest_admitted
  · simp [IdsFaithful]
  · simp only [mem_singleton, forall_eq]
    exact paidRequest_feeCovered
  · have hempty : CoinbaseManager.smallManager.serializeCoinbasePayload 0
        (CoinbaseManager.smallManager.calcBlockSubsidy 10) ⟨⟨0, [3]⟩, []⟩
          = .ok (smallCoinbase []).payload := by decide +kernel
    obtain rfl := Except.ok.inj (hempty.symm.trans hpayload)
    exact Or.inl (by decide +kernel)

end VirtualProcessor

end Tx

end KeryxNode
