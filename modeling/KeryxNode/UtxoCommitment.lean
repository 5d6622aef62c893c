import Mathlib.Algebra.Order.Group.Multiset
import Mathlib.Data.List.Flatten
import KeryxNode.ErrorChain
import KeryxNode.SnapshotCodec
import KeryxNode.UtxoDiff

/-!
# The UTXO Commitment

A block commits to its UTXO set through a MuHash of the set's serialized coins. The state of a
block is calculated from its selected parent's by accepting the parent's coinbase and then,
mergeset block by mergeset block, the transactions valid in the view so far
(`calculateUtxoState`); every accepted transaction goes through the multiset and through the
diff side by side, along two code paths that each assign the age anchors of the outputs.

The accumulator is modelled as the two multisets whose quotient it is: elements multiplied
into the numerator and into the denominator. Script and amount rules are a parameter of the
model (`UtxoRules`), as is the set of burned outpoints; the rewards, the acceptance data and
the inference transactions that the calculation also collects do not touch the commitment and
are left out.

## Main results

* `utxo_commitment_exact`: the multiset afterwards is that of the set afterwards.
-/

namespace KeryxNode

open ByteCodec List OrdMap
open UtxoCollection (containsWithDaaScore)

/-! ### Transactions -/

/-- A transaction output. -/
structure TransactionOutput where
  value : ℕ
  scriptPublicKey : ScriptPublicKey
  deriving DecidableEq, Repr

/-- What acceptance reads of a transaction. -/
structure Transaction where
  id : Hash
  inputs : List TransactionOutpoint := []
  outputs : List TransactionOutput := []
  isCoinbase : Bool := false
  deriving DecidableEq, Repr

/-- The transactions of a block: its coinbase and the others, no outpoint spent twice among
them. A body that spends one twice is rejected before it is stored. -/
structure BlockBody where
  coinbase : Transaction
  txs : List Transaction
  inputs_nodup : (txs.flatMap Transaction.inputs).Nodup

/-- A transaction with the coins its inputs spend. -/
structure ValidatedTransaction where
  tx : Transaction
  entries : List UtxoEntry
  deriving DecidableEq, Repr

namespace ValidatedTransaction

/-- A coinbase spends nothing. -/
def newCoinbase (tx : Transaction) : ValidatedTransaction :=
  ⟨tx, []⟩

/-- The inputs with the coins they spend. -/
def populatedInputs (t : ValidatedTransaction) : List (TransactionOutpoint × UtxoEntry) :=
  t.tx.inputs.zip t.entries

/-- The anchors of the outputs in the coin-age era; none before it. -/
def anchors (t : ValidatedTransaction) (blockDaaScore : ℕ) (coinAgeActive : Bool) :
    Option (List ℕ) :=
  if coinAgeActive then
    some (assignOutputEffectiveDaa
      (t.populatedInputs.map fun i => (i.2.scriptPublicKey, i.2.amount, i.2.effectiveDaa))
      (t.tx.outputs.map fun o => (o.scriptPublicKey, o.value)) blockDaaScore)
  else none

/-- The coins the outputs create. -/
def createdCoins (t : ValidatedTransaction) (blockDaaScore : ℕ) (anchors : Option (List ℕ)) :
    List (TransactionOutpoint × UtxoEntry) :=
  t.tx.outputs.zipIdx.map fun oi =>
    (⟨t.tx.id, oi.2⟩,
      match anchors with
      | some anchors => .newAged oi.1.value oi.1.scriptPublicKey blockDaaScore t.tx.isCoinbase
          (anchors.getD oi.2 0)
      | none => .new oi.1.value oi.1.scriptPublicKey blockDaaScore t.tx.isCoinbase)

end ValidatedTransaction

/-! ### The diff side -/

namespace UtxoDiff

/-- Spends a coin: a pending addition of the same coin is dropped, any other one is recorded
as removed. -/
def removeEntry (d : UtxoDiff) (o : TransactionOutpoint) (entry : UtxoEntry) :
    Except UtxoAlgebraError UtxoDiff :=
  if containsWithDaaScore d.add o entry.blockDaaScore then
    .ok { d with add := d.add.erase o }
  else if d.remove.contains o then .error (.doubleRemoveCall o)
  else .ok { d with remove := d.remove.insert o entry }

/-- Creates a coin: a pending removal of the same coin is dropped, any other one is recorded
as added. -/
def addEntry (d : UtxoDiff) (o : TransactionOutpoint) (entry : UtxoEntry) :
    Except UtxoAlgebraError UtxoDiff :=
  if containsWithDaaScore d.remove o entry.blockDaaScore then
    .ok { d with remove := d.remove.erase o }
  else if d.add.contains o then .error (.doubleAddCall o)
  else .ok { d with add := d.add.insert o entry }

/-- Applies a validated transaction to the diff. -/
def addTransaction (d : UtxoDiff) (t : ValidatedTransaction) (blockDaaScore : ℕ)
    (coinAgeActive : Bool) : Except UtxoAlgebraError UtxoDiff := do
  let anchors := t.anchors blockDaaScore coinAgeActive
  let spent ← t.populatedInputs.foldlM (fun d i => d.removeEntry i.1 i.2) d
  (t.createdCoins blockDaaScore anchors).foldlM (fun d c => d.addEntry c.1 c.2) spent

end UtxoDiff

/-! ### The multiset side -/

/-- The bytes of a coin in the commitment. The anchor is part of them exactly if the coin was
created in the coin-age era. -/
def writeUtxo (coinAgeActivation : ℕ) (o : TransactionOutpoint) (e : UtxoEntry) : List UInt8 :=
  hashBytes o.transactionId ++ leBytes 4 o.index ++ leBytes 8 e.blockDaaScore ++
    leBytes 8 e.amount ++ [if e.isCoinbase then 1 else 0] ++
    leBytes 2 e.scriptPublicKey.version ++
    (leBytes 8 e.scriptPublicKey.script.length ++ e.scriptPublicKey.script) ++
    if coinAgeActivation ≤ e.blockDaaScore then leBytes 8 e.effectiveDaa else []

/-- A MuHash as the elements multiplied into its numerator and its denominator. -/
structure MuHash where
  numerator : Multiset (List UInt8) := 0
  denominator : Multiset (List UInt8) := 0
  deriving DecidableEq

namespace MuHash

/-- Adds an element. -/
def addElement (m : MuHash) (data : List UInt8) : MuHash :=
  { m with numerator := data ::ₘ m.numerator }

/-- Removes an element. -/
def removeElement (m : MuHash) (data : List UInt8) : MuHash :=
  { m with denominator := data ::ₘ m.denominator }

/-- Adds all elements of another accumulator, and removes what it removed. -/
def combine (m other : MuHash) : MuHash :=
  ⟨m.numerator + other.numerator, m.denominator + other.denominator⟩

/-- The accumulator holds the multiset `S`: what was added is what was removed and `S`. -/
def Holds (m : MuHash) (S : Multiset (List UInt8)) : Prop :=
  m.numerator = m.denominator + S

/-- Adds a coin. -/
def addUtxo (m : MuHash) (coinAgeActivation : ℕ) (o : TransactionOutpoint) (e : UtxoEntry) :
    MuHash :=
  m.addElement (writeUtxo coinAgeActivation o e)

/-- Applies a transaction: its inputs are removed, its outputs added. -/
def addTransaction (m : MuHash) (t : ValidatedTransaction) (blockDaaScore coinAgeActivation : ℕ) :
    MuHash :=
  let anchors := t.anchors blockDaaScore (decide (coinAgeActivation ≤ blockDaaScore))
  let spent := t.populatedInputs.foldl
    (fun m i => m.removeElement (writeUtxo coinAgeActivation i.1 i.2)) m
  (t.createdCoins blockDaaScore anchors).foldl
    (fun m c => m.addUtxo coinAgeActivation c.1 c.2) spent

/-- The accumulator of one transaction. -/
def fromTransaction (t : ValidatedTransaction) (blockDaaScore coinAgeActivation : ℕ) : MuHash :=
  addTransaction {} t blockDaaScore coinAgeActivation

end MuHash

/-! ### Acceptance -/

/-- How much of a transaction's validation is run. -/
inductive TxValidationFlags where
  | full
  | skipScriptChecks
  | skipMassCheck
  deriving DecidableEq

/-- The age anchors the chain committed for specific historical spends, by outpoint. -/
def historicalAnchorOverrides : List (Hash × ℕ × ℕ) :=
  [(0xaeb4e536e444210419a3bf2fae8e582816ad36339be0f429c0eaac611e3bcab3, 1, 74780462)]

/-- The committed anchor of an outpoint, if it is one of those. -/
def historicalAnchorOverride (o : TransactionOutpoint) : Option ℕ :=
  (historicalAnchorOverrides.find? fun r =>
    decide (o.transactionId = r.1 ∧ o.index = r.2.1)).map fun r => r.2.2

/-- The rules of acceptance: the coin-age gate, the outpoints burned at a score, and the
validation of a populated transaction, which returns its fee. -/
structure UtxoRules where
  coinAgeActivation : ℕ
  burned : TransactionOutpoint → ℕ → Bool
  validatePopulated : ValidatedTransaction → ℕ → TxValidationFlags → Option ℕ

/-- The state calculated for a block: multiset, diff over the selected parent and accepted
transactions. -/
structure UtxoProcessingContext where
  multisetHash : MuHash
  mergesetDiff : UtxoDiff := {}
  acceptedTxIds : List Hash := []

namespace UtxoRules

variable (R : UtxoRules)

/-- The coin an input spends, with its committed anchor. -/
def populateInput (view : UtxoView) (o : TransactionOutpoint) : Option UtxoEntry :=
  (view o).map fun entry =>
    match historicalAnchorOverride o with
    | some anchor => { entry with effectiveDaa := anchor }
    | none => entry

/-- A transaction with its coins, if it is valid in the view. -/
def validateTransactionInUtxoContext (tx : Transaction) (view : UtxoView) (povDaaScore : ℕ)
    (flags : TxValidationFlags) : Option ValidatedTransaction :=
  if tx.inputs.any fun o => R.burned o povDaaScore then none
  else
    (tx.inputs.mapM (populateInput view)).bind fun entries =>
      (R.validatePopulated ⟨tx, entries⟩ povDaaScore flags).map fun _ => ⟨tx, entries⟩

/-- The valid transactions of a block, its coinbase apart. -/
def validTransactions (body : BlockBody) (view : UtxoView) (povDaaScore : ℕ)
    (flags : TxValidationFlags) : List ValidatedTransaction :=
  body.txs.filterMap fun tx => R.validateTransactionInUtxoContext tx view povDaaScore flags

/-- The valid transactions of a block with their accumulator. -/
def validateTransactionsWithMuhashInParallel (body : BlockBody) (view : UtxoView)
    (povDaaScore : ℕ) (flags : TxValidationFlags) : List ValidatedTransaction × MuHash :=
  let validated := R.validTransactions body view povDaaScore flags
  (validated, validated.foldl (fun m t =>
    m.combine (MuHash.fromTransaction t povDaaScore R.coinAgeActivation)) {})

/-- Whether the coin-age era is live. -/
def coinAgeActive (daaScore : ℕ) : Bool :=
  decide (R.coinAgeActivation ≤ daaScore)

/-- Accepts the coinbase of the selected parent. -/
def acceptCoinbase (ctx : UtxoProcessingContext) (coinbase : Transaction) (povDaaScore : ℕ) :
    Except UtxoAlgebraError UtxoProcessingContext := do
  let t := ValidatedTransaction.newCoinbase coinbase
  let mergesetDiff ← ctx.mergesetDiff.addTransaction t povDaaScore (R.coinAgeActive povDaaScore)
  return {
    mergesetDiff
    multisetHash := ctx.multisetHash.addTransaction t povDaaScore R.coinAgeActivation
    acceptedTxIds := ctx.acceptedTxIds ++ [coinbase.id] }

/-- Accepts the valid transactions of one mergeset block. -/
def acceptBlock (view : UtxoView) (povDaaScore : ℕ) (ctx : UtxoProcessingContext)
    (merged : TxValidationFlags × BlockBody) : Except UtxoAlgebraError UtxoProcessingContext := do
  let validated := R.validateTransactionsWithMuhashInParallel merged.2
    (ctx.mergesetDiff.composed view) povDaaScore merged.1
  let mergesetDiff ← validated.1.foldlM
    (fun d t => d.addTransaction t povDaaScore (R.coinAgeActive povDaaScore)) ctx.mergesetDiff
  return {
    mergesetDiff
    multisetHash := ctx.multisetHash.combine validated.2
    acceptedTxIds := ctx.acceptedTxIds ++ validated.1.map fun t => t.tx.id }

/-- The merged blocks with their flags: the selected parent's transactions were validated in
the same context already, those of the other blocks are validated in full. -/
def mergedBlocks (selectedParent : BlockBody) (mergeset : List BlockBody) :
    List (TxValidationFlags × BlockBody) :=
  (.skipScriptChecks, selectedParent) :: mergeset.map fun b => (.full, b)

/-- The state of a block over its selected parent's view, the other merged blocks in consensus
order. An error is one the source unwraps. -/
def calculateUtxoState (view : UtxoView) (multisetHash : MuHash) (povDaaScore : ℕ)
    (selectedParent : BlockBody) (mergeset : List BlockBody) :
    Except UtxoAlgebraError UtxoProcessingContext := do
  let ctx ← R.acceptCoinbase { multisetHash } selectedParent.coinbase povDaaScore
  (mergedBlocks selectedParent mergeset).foldlM (R.acceptBlock view povDaaScore) ctx

end UtxoRules

/-! ### The committed elements -/

/-- The serialized coins of a set. -/
def UtxoCollection.elements (coinAgeActivation : ℕ) (set : UtxoCollection) :
    Multiset (List UInt8) :=
  set.total fun o e => {writeUtxo coinAgeActivation o e}

namespace MuHash

variable {m : MuHash} {S : Multiset (List UInt8)} {x : List UInt8}

/-- Removing an element that is held. -/
theorem Holds.removeElement (h : m.Holds (x ::ₘ S)) : (m.removeElement x).Holds S := by
  rw [Holds, MuHash.removeElement, Multiset.cons_add, ← Multiset.add_cons]
  exact h

/-- Adding an element. -/
theorem Holds.addElement (h : m.Holds S) : (m.addElement x).Holds (x ::ₘ S) := by
  rw [Holds, Multiset.add_cons]
  exact congrArg (x ::ₘ ·) h

theorem combine_empty (m : MuHash) : m.combine {} = m := by
  simp [combine]

/-- A transaction may be multiplied in before or after two accumulators are combined. -/
theorem combine_addTransaction (m acc : MuHash) (t : ValidatedTransaction) (daa act : ℕ) :
    (m.combine acc).addTransaction t daa act = m.combine (acc.addTransaction t daa act) := by
  have hspent : ∀ l : List (TransactionOutpoint × UtxoEntry),
      l.foldl (fun m i => m.removeElement (writeUtxo act i.1 i.2)) (m.combine acc)
        = m.combine (l.foldl (fun m i => m.removeElement (writeUtxo act i.1 i.2)) acc) :=
    fun l => foldl_hom m.combine fun _ _ =>
      congrArg (MuHash.mk _) (Multiset.add_cons _ _ _).symm
  rw [addTransaction, hspent]
  exact foldl_hom m.combine fun _ _ => congrArg (MuHash.mk · _) (Multiset.add_cons _ _ _).symm

/-- The accumulators of a block's transactions, reduced and combined, are the transactions
one after the other. -/
theorem combine_foldl (ts : List ValidatedTransaction) (m : MuHash) (daa act : ℕ) :
    m.combine (ts.foldl (fun m t => m.combine (fromTransaction t daa act)) {})
      = ts.foldl (fun m t => m.addTransaction t daa act) m := by
  simp only [fromTransaction, ← combine_addTransaction, combine_empty]
  conv_rhs => rw [← combine_empty m]
  exact (foldl_hom m.combine fun _ _ => combine_addTransaction ..).symm

end MuHash

/-! ### The invariant -/

/-- The accumulator commits to the set `U` under the diff, and the coins the diff adds are of
the transactions accepted so far. -/
structure CommitsTo (act : ℕ) (U : UtxoCollection) (ids : List Hash) (m : MuHash)
    (d : UtxoDiff) : Prop where
  applies : d.Applies U.get?
  holds : m.Holds (UtxoCollection.elements act (d.writeTo U))
  created : ∀ o e, d.add.get? o = some e → o.transactionId ∈ ids

namespace CommitsTo

variable {act : ℕ} {U : UtxoCollection} {ids : List Hash} {m : MuHash} {d : UtxoDiff}
  {o : TransactionOutpoint} {e : UtxoEntry}

theorem get?_writeTo_eq (d : UtxoDiff) (U : UtxoCollection) (o : TransactionOutpoint) :
    (d.writeTo U).get? o = UtxoDiff.readAt (U.get? o) (d.add.get? o) (d.remove.get? o) := by
  rw [UtxoDiff.get?_writeTo]
  rfl

/-- A diff changed at one outpoint, where it still applies: it shows the others as before. -/
theorem of_change_at (d' : UtxoDiff) (h : d.Applies U.get?)
    (hadd : ∀ p ≠ o, d'.add.get? p = d.add.get? p)
    (hremove : ∀ p ≠ o, d'.remove.get? p = d.remove.get? p)
    (hat : UtxoDiff.AppliesAt (U.get? o) (d'.add.get? o) (d'.remove.get? o)) :
    d'.Applies U.get? ∧ ∀ p ≠ o, (d'.writeTo U).get? p = (d.writeTo U).get? p := by
  refine ⟨fun p => ?_, fun p hp => ?_⟩
  · by_cases hp : p = o
    · rwa [hp]
    · rw [hadd p hp, hremove p hp]
      exact h p
  · rw [get?_writeTo_eq, get?_writeTo_eq, hadd p hp, hremove p hp]

/-- Spending a coin the view shows succeeds and changes the diff at its outpoint only: a coin
the diff adds is added no more, a coin of the set below is removed. -/
theorem removeEntry_ok (h : d.Applies U.get?) (hheld : (d.writeTo U).get? o = some e) :
    ∃ d', d.removeEntry o e = .ok d' ∧ (∀ p ≠ o, d'.add.get? p = d.add.get? p) ∧
      (∀ p ≠ o, d'.remove.get? p = d.remove.get? p) ∧
      UtxoDiff.AppliesAt (U.get? o) none (d'.remove.get? o) ∧ d'.add.get? o = none ∧
      (d'.writeTo U).get? o = none := by
  have hread := (get?_writeTo_eq d U o).symm.trans hheld
  by_cases hadd : containsWithDaaScore d.add o e.blockDaaScore = true
  · refine ⟨_, if_pos hadd, fun p => get?_erase_of_ne _, fun _ _ => rfl,
      ⟨(h o).removed, fun _ => nofun⟩, get?_erase_self _ _, ?_⟩
    rw [get?_writeTo_eq, UtxoDiff.readAt_eq_none]
    cases ha : d.add.get? o with
    | none => simp [containsWithDaaScore, ha] at hadd
    | some x => exact ⟨get?_erase_self _ _, (h o).added x ha⟩
  · obtain ⟨hnone, hfree, hbase⟩ := (UtxoDiff.readAt_eq_some.mp hread).resolve_left fun ha => by
      simp [containsWithDaaScore, ha] at hadd
    have hok : d.removeEntry o e = .ok { d with remove := d.remove.insert o e } := by
      rw [UtxoDiff.removeEntry, if_neg hadd, contains_eq_false.mpr hfree]
      rfl
    refine ⟨_, hok, fun _ _ => rfl, fun p => get?_insert_of_ne _ _,
      ⟨fun x hx => by simpa [hbase] using hx, fun _ => nofun⟩, hnone, ?_⟩
    simp [get?_writeTo_eq, UtxoDiff.readAt, hnone]

/-- **One coin spent.** -/
theorem remove (h : CommitsTo act U ids m d) (hheld : (d.writeTo U).get? o = some e) :
    ∃ d', d.removeEntry o e = .ok d' ∧
      CommitsTo act U ids (m.removeElement (writeUtxo act o e)) d' ∧
      ∀ p ≠ o, (d'.writeTo U).get? p = (d.writeTo U).get? p := by
  obtain ⟨d', hok, hadd, hremove, hat, hnone, hgone⟩ := removeEntry_ok h.applies hheld
  obtain ⟨happ, hother⟩ := of_change_at d' h.applies hadd hremove (by rwa [hnone])
  refine ⟨d', hok, ⟨happ, ?_, fun p x hx => h.created p x ?_⟩, hother⟩
  · have hset : d'.writeTo U = (d.writeTo U).erase o := by
      refine ext_get? fun p => ?_
      rw [get?_erase]
      split_ifs with hp
      · rw [hp, hgone]
      · exact hother p hp
    have hholds := h.holds
    rw [UtxoCollection.elements, ← total_erase _ hheld, ← hset]
      at hholds
    exact hholds.removeElement
  · rwa [← hadd p fun hp => by simp [hp, hnone] at hx]

/-- **One coin created**, at an outpoint neither the set nor the diff has. -/
theorem add (h : CommitsTo act U ids m d) (hU : U.get? o = none)
    (hfree : (d.writeTo U).get? o = none) (hid : o.transactionId ∈ ids) :
    ∃ d', d.addEntry o e = .ok d' ∧ CommitsTo act U ids (m.addUtxo act o e) d' ∧
      ∀ p ≠ o, (d'.writeTo U).get? p = (d.writeTo U).get? p := by
  have hremove : d.remove.get? o = none := by
    cases hr : d.remove.get? o with
    | none => rfl
    | some x =>
      have := (h.applies o).removed x hr
      rw [hU] at this
      cases this
  have hadd : d.add.get? o = none :=
    (UtxoDiff.readAt_eq_none.mp ((get?_writeTo_eq d U o).symm.trans hfree)).1
  have hok : d.addEntry o e = .ok { d with add := d.add.insert o e } := by
    rw [UtxoDiff.addEntry, contains_eq_false.mpr hadd]
    simp [containsWithDaaScore, hremove]
  obtain ⟨happ, hother⟩ := of_change_at { d with add := d.add.insert o e } h.applies
    (fun p => get?_insert_of_ne _ _) (fun _ _ => rfl) ⟨(h.applies o).removed, fun _ _ => .inl hU⟩
  have hset : ({ d with add := d.add.insert o e } : UtxoDiff).writeTo U
      = (d.writeTo U).insert o e := by
    refine ext_get? fun p => ?_
    rw [get?_insert]
    split_ifs with hp
    · simp [hp, get?_writeTo_eq, UtxoDiff.readAt]
    · exact hother p hp
  refine ⟨_, hok, ⟨happ, ?_, fun _ _ hx => forall_get?_insert hx hid h.created⟩, hother⟩
  rw [hset, UtxoCollection.elements, total_insert _ e hfree]
  exact h.holds.addElement

/-- Coins of distinct outpoints one after the other: a step needs the condition `P` of what the
set holds at its own outpoint, and leaves the others. -/
theorem foldlM_coins {P : TransactionOutpoint × UtxoEntry → Option UtxoEntry → Prop}
    {f : UtxoDiff → TransactionOutpoint × UtxoEntry → Except UtxoAlgebraError UtxoDiff}
    {g : MuHash → TransactionOutpoint × UtxoEntry → MuHash}
    (hstep : ∀ {m d} c, CommitsTo act U ids m d → P c ((d.writeTo U).get? c.1) →
      ∃ d', f d c = .ok d' ∧ CommitsTo act U ids (g m c) d' ∧
        ∀ o ≠ c.1, (d'.writeTo U).get? o = (d.writeTo U).get? o)
    (l : List (TransactionOutpoint × UtxoEntry)) :
    ∀ {m d}, CommitsTo act U ids m d → (l.map Prod.fst).Nodup →
      (∀ c ∈ l, P c ((d.writeTo U).get? c.1)) →
      ∃ d', l.foldlM f d = .ok d' ∧ CommitsTo act U ids (l.foldl g m) d' ∧
        ∀ o, o ∉ l.map Prod.fst → (d'.writeTo U).get? o = (d.writeTo U).get? o := by
  induction l with
  | nil => exact fun h _ _ => ⟨_, rfl, h, fun _ _ => rfl⟩
  | cons c l ih =>
    intro m d h hnodup hl
    obtain ⟨hc, hnodup⟩ := nodup_cons.mp hnodup
    obtain ⟨d₁, hok₁, h₁, hother⟩ := hstep c h (hl c mem_cons_self)
    obtain ⟨d₂, hok₂, h₂, hrest⟩ := ih h₁ hnodup fun b hb => by
      rw [hother b.1 fun heq => hc (heq ▸ mem_map_of_mem hb)]
      exact hl b (mem_cons_of_mem _ hb)
    refine ⟨d₂, ?_, h₂, fun o ho => ?_⟩
    · rw [foldlM_cons, hok₁]
      exact hok₂
    · rw [map_cons, mem_cons, not_or] at ho
      rw [hrest o ho.2, hother o ho.1]

theorem mono {ids' : List Hash} (h : CommitsTo act U ids m d) (hsub : ids ⊆ ids') :
    CommitsTo act U ids' m d :=
  ⟨h.applies, h.holds, fun o e ho => hsub (h.created o e ho)⟩

/-- A coin of the set under the diff is one of `U` or of an accepted transaction. -/
theorem id_of_held (h : CommitsTo act U ids m d) (hheld : (d.writeTo U).get? o = some e) :
    (∃ x, U.get? o = some x) ∨ o.transactionId ∈ ids := by
  rw [get?_writeTo_eq, UtxoDiff.readAt_eq_some] at hheld
  obtain ha | ⟨-, -, hu⟩ := hheld
  · exact .inr (h.created o e ha)
  · exact .inl ⟨e, hu⟩

end CommitsTo

/-- Ids of transactions not seen before: distinct, and not those of the coins of a set. -/
structure NewIds (U : UtxoCollection) (ids : List Hash) : Prop where
  nodup : ids.Nodup
  coins : ∀ c ∈ U.entries, c.1.transactionId ∉ ids

namespace CommitsTo

variable {act : ℕ} {U : UtxoCollection} {ids : List Hash} {m : MuHash} {d : UtxoDiff}

/-- Nothing with a new id is held: it would be a coin of `U` or of an accepted transaction. -/
theorem not_held (h : CommitsTo act U ids m d) {id : Hash} (hnew : NewIds U (ids ++ [id]))
    {o : TransactionOutpoint} (ho : o.transactionId = id) :
    U.get? o = none ∧ (d.writeTo U).get? o = none := by
  have hmem : o.transactionId ∈ ids ++ [id] := mem_append_right _ (mem_singleton.mpr ho)
  have hU : ∀ x, U.get? o ≠ some x := fun x hx =>
    hnew.coins (o, x) (get?_eq_some_iff.mp hx) hmem
  refine ⟨Option.eq_none_iff_forall_ne_some.mpr hU,
    Option.eq_none_iff_forall_ne_some.mpr fun x hx => ?_⟩
  obtain ⟨y, hy⟩ | hold := h.id_of_held hx
  · exact hU y hy
  · exact (nodup_append.mp hnew.nodup).2.2 _ hold _ (mem_singleton_self _) ho

/-- The outpoints a transaction creates are its own, one per output. -/
theorem createdCoins_keys (t : ValidatedTransaction) (daa : ℕ) (anchors : Option (List ℕ)) :
    ((t.createdCoins daa anchors).map Prod.fst).Nodup ∧
      ∀ c ∈ t.createdCoins daa anchors, c.1.transactionId = t.tx.id := by
  constructor
  · have hkeys : (t.createdCoins daa anchors).map Prod.fst
        = (range t.tx.outputs.length).map fun i => ⟨t.tx.id, i⟩ := by
      rw [ValidatedTransaction.createdCoins, map_map, range_eq_range',
        ← zipIdx_map_snd 0 t.tx.outputs, map_map]
      rfl
    rw [hkeys]
    exact nodup_range.map fun i j hij => (TransactionOutpoint.mk.inj hij).2
  · intro c hc
    obtain ⟨oi, -, rfl⟩ := mem_map.mp hc
    rfl

/-- **One transaction**: its inputs are held as they were populated, its id is new. -/
theorem addTransaction (h : CommitsTo act U ids m d) (t : ValidatedTransaction) (daa : ℕ)
    (hnodup : (t.populatedInputs.map Prod.fst).Nodup)
    (hheld : ∀ i ∈ t.populatedInputs, (d.writeTo U).get? i.1 = some i.2)
    (hnew : NewIds U (ids ++ [t.tx.id])) :
    ∃ d', d.addTransaction t daa (decide (act ≤ daa)) = .ok d' ∧
      CommitsTo act U (ids ++ [t.tx.id]) (m.addTransaction t daa act) d' ∧
      ∀ o, o ∉ t.populatedInputs.map Prod.fst → o.transactionId ≠ t.tx.id →
        (d'.writeTo U).get? o = (d.writeTo U).get? o := by
  obtain ⟨hkeys, hids⟩ := createdCoins_keys t daa (t.anchors daa (decide (act ≤ daa)))
  obtain ⟨d₁, hok₁, h₁, hother₁⟩ := foldlM_coins (P := fun c held => held = some c.2)
    (fun _ h hc => h.remove hc) _ h hnodup hheld
  obtain ⟨d₂, hok₂, h₂, hother₂⟩ := foldlM_coins
    (P := fun c held => (U.get? c.1 = none ∧ held = none) ∧ c.1.transactionId ∈ ids ++ [t.tx.id])
    (fun c h hc => h.add (e := c.2) hc.1.1 hc.1.2 hc.2) _
    (h₁.mono (subset_append_left ids [t.tx.id])) hkeys
    fun c hc => ⟨h₁.not_held hnew (hids c hc), by simp [hids c hc]⟩
  refine ⟨d₂, ?_, h₂, fun o ho hne => ?_⟩
  · rw [UtxoDiff.addTransaction, hok₁]
    exact hok₂
  · rw [hother₂ o ?_, hother₁ o ho]
    intro hmem
    obtain ⟨c, hc, rfl⟩ := mem_map.mp hmem
    exact hne (hids c hc)

/-- Transactions of one block, all populated from the set they start on. -/
theorem addTransactions (ts : List ValidatedTransaction) (daa : ℕ) :
    ∀ {ids : List Hash} {m : MuHash} {d : UtxoDiff}, CommitsTo act U ids m d →
      (ts.flatMap fun t => t.populatedInputs.map Prod.fst).Nodup →
      (∀ t ∈ ts, ∀ i ∈ t.populatedInputs, (d.writeTo U).get? i.1 = some i.2) →
      NewIds U (ids ++ ts.map fun t => t.tx.id) →
      ∃ d', ts.foldlM (fun d t => d.addTransaction t daa (decide (act ≤ daa))) d = .ok d' ∧
        CommitsTo act U (ids ++ ts.map fun t => t.tx.id)
          (ts.foldl (fun m t => m.addTransaction t daa act) m) d' := by
  induction ts with
  | nil =>
    intro ids m d h _ _ _
    rw [map_nil, append_nil]
    exact ⟨d, rfl, h⟩
  | cons t ts ih =>
    intro ids m d h hnodup hheld hnew
    obtain ⟨ht, hts, hdisjoint⟩ := nodup_append.mp (flatMap_cons ▸ hnodup)
    rw [map_cons, append_cons] at hnew
    have hhead : NewIds U (ids ++ [t.tx.id]) :=
      ⟨(nodup_append.mp hnew.nodup).1,
        fun c hc hmem => hnew.coins c hc (mem_append_left _ hmem)⟩
    obtain ⟨d₁, hok₁, h₁, hother⟩ := h.addTransaction t daa ht
      (hheld t mem_cons_self) hhead
    -- The inputs of the later transactions are other outpoints, and not of the new id.
    have hlater : ∀ t' ∈ ts, ∀ i ∈ t'.populatedInputs, (d₁.writeTo U).get? i.1 = some i.2 := by
      intro t' ht' i hi
      have hi₀ := hheld t' (mem_cons_of_mem _ ht') i hi
      rw [hother i.1 ?_ ?_]
      · exact hi₀
      · exact fun hmem => hdisjoint _ hmem _
          (mem_flatMap.mpr ⟨t', ht', mem_map_of_mem hi⟩) rfl
      · intro heq
        cases (h.not_held hhead heq).2.symm.trans hi₀
    obtain ⟨d₂, hok₂, h₂⟩ := ih h₁ hts hlater hnew
    refine ⟨d₂, ?_, ?_⟩
    · rw [foldlM_cons, hok₁]
      exact hok₂
    · rw [map_cons, append_cons]
      exact h₂

end CommitsTo

/-! ### Blocks -/

namespace UtxoRules

variable {R : UtxoRules} {U : UtxoCollection} {pov : ℕ}

/-- A validated transaction is the transaction with the coins the view holds, where no anchor
is overridden. -/
theorem populatedInputs_of_validate {tx : Transaction} {view : UtxoView}
    {flags : TxValidationFlags} {t : ValidatedTransaction}
    (h : R.validateTransactionInUtxoContext tx view pov flags = some t)
    (hover : ∀ o ∈ tx.inputs, historicalAnchorOverride o = none) :
    t.tx = tx ∧ t.populatedInputs.map Prod.fst = tx.inputs ∧
      ∀ i ∈ t.populatedInputs, view i.1 = some i.2 := by
  rw [validateTransactionInUtxoContext] at h
  split at h
  · cases h
  · obtain ⟨entries, hent, h⟩ := Option.bind_eq_some_iff.mp h
    obtain ⟨-, -, rfl⟩ := Option.map_eq_some_iff.mp h
    obtain ⟨hlength, hzip⟩ := forall₂_iff_zip.mp (mapM_eq_some.mp hent)
    refine ⟨rfl, map_fst_zip hlength.le, fun i hi => ?_⟩
    have hcoin := hzip hi
    rwa [populateInput, hover i.1 (of_mem_zip hi).1, Option.map_id'] at hcoin

/-- No input of a body is one of the overridden outpoints. -/
def NoOverride (body : BlockBody) : Prop :=
  ∀ tx ∈ body.txs, ∀ o ∈ tx.inputs, historicalAnchorOverride o = none

/-- The inputs of the valid transactions of a body are distinct. -/
theorem inputs_validTransactions {body : BlockBody} (hover : NoOverride body) (view : UtxoView)
    (flags : TxValidationFlags) :
    ((R.validTransactions body view pov flags).flatMap
      fun t => t.populatedInputs.map Prod.fst).Nodup := by
  refine body.inputs_nodup.sublist ?_
  rw [validTransactions, filterMap_eq_flatMap_toList, flatMap_assoc]
  refine Sublist.flatMap_right _ fun tx htx => ?_
  cases hv : R.validateTransactionInUtxoContext tx view pov flags with
  | none => exact nil_sublist _
  | some t =>
    rw [Option.toList_some, flatMap_singleton, (populatedInputs_of_validate hv (hover tx htx)).2.1]

/-- **One mergeset block.** -/
theorem commitsTo_acceptBlock {ctx : UtxoProcessingContext} {flags : TxValidationFlags}
    {body : BlockBody}
    (h : CommitsTo R.coinAgeActivation U ctx.acceptedTxIds ctx.multisetHash ctx.mergesetDiff)
    (hover : NoOverride body)
    (hnew : NewIds U (ctx.acceptedTxIds ++ (R.validTransactions body
      (ctx.mergesetDiff.composed U.get?) pov flags).map fun t => t.tx.id)) :
    ∃ ctx', R.acceptBlock U.get? pov ctx (flags, body) = .ok ctx' ∧
      CommitsTo R.coinAgeActivation U ctx'.acceptedTxIds ctx'.multisetHash ctx'.mergesetDiff := by
  obtain ⟨d, hok, hd⟩ := CommitsTo.addTransactions
    (R.validTransactions body (ctx.mergesetDiff.composed U.get?) pov flags) pov h
    (inputs_validTransactions hover _ flags)
    (fun t ht i hi => by
      obtain ⟨tx, htx, hv⟩ := mem_filterMap.mp ht
      rw [UtxoDiff.get?_writeTo]
      exact (populatedInputs_of_validate hv (hover tx htx)).2.2 i hi)
    hnew
  refine ⟨⟨_, d, _⟩, ?_, hd⟩
  have hmuhash := MuHash.combine_foldl (R.validTransactions body
    (ctx.mergesetDiff.composed U.get?) pov flags) ctx.multisetHash pov R.coinAgeActivation
  rw [UtxoRules.acceptBlock, validateTransactionsWithMuhashInParallel]
  simp only [coinAgeActive, hok, hmuhash]
  rfl

/-- The coinbase of the selected parent. -/
theorem commitsTo_acceptCoinbase (pov : ℕ) {m : MuHash} {coinbase : Transaction}
    (h : m.Holds (UtxoCollection.elements R.coinAgeActivation U))
    (hnew : NewIds U [coinbase.id]) :
    ∃ ctx, R.acceptCoinbase { multisetHash := m } coinbase pov = .ok ctx ∧
      CommitsTo R.coinAgeActivation U ctx.acceptedTxIds ctx.multisetHash ctx.mergesetDiff := by
  have hstart : CommitsTo R.coinAgeActivation U [] m {} := by
    refine ⟨fun o => ⟨fun e he => (by cases he), fun e he => (by cases he)⟩, ?_,
      fun o e he => (by cases he)⟩
    exact h
  have hinputs : (ValidatedTransaction.newCoinbase coinbase).populatedInputs = [] :=
    zip_nil_right
  obtain ⟨d, hok, hd, -⟩ := hstart.addTransaction (.newCoinbase coinbase) pov
    (by rw [hinputs]; exact nodup_nil)
    (by rw [hinputs]; exact fun i hi => (by cases hi)) hnew
  refine ⟨⟨_, d, _⟩, ?_, hd⟩
  rw [UtxoRules.acceptCoinbase]
  simp only [coinAgeActive, hok]
  rfl

/-- Along the merged blocks, every block accepts transactions of new ids. -/
def AcceptsNewIds (R : UtxoRules) (U : UtxoCollection) (pov : ℕ) :
    UtxoProcessingContext → List (TxValidationFlags × BlockBody) → Prop
  | _, [] => True
  | ctx, merged :: rest =>
    NewIds U (ctx.acceptedTxIds ++ (R.validTransactions merged.2
      (ctx.mergesetDiff.composed U.get?) pov merged.1).map fun t => t.tx.id) ∧
    ∀ ctx', R.acceptBlock U.get? pov ctx merged = .ok ctx' → AcceptsNewIds R U pov ctx' rest

/-- The transactions accepted by the calculation have new ids: the coinbase of the selected
parent and those of the merged blocks in turn. -/
def CalculatesNewIds (R : UtxoRules) (U : UtxoCollection) (m : MuHash) (pov : ℕ)
    (selectedParent : BlockBody) (mergeset : List BlockBody) : Prop :=
  NewIds U [selectedParent.coinbase.id] ∧
    ∀ ctx, R.acceptCoinbase { multisetHash := m } selectedParent.coinbase pov = .ok ctx →
      AcceptsNewIds R U pov ctx (mergedBlocks selectedParent mergeset)

/-- The merged blocks one after the other. -/
theorem commitsTo_acceptBlocks (merged : List (TxValidationFlags × BlockBody)) :
    ∀ {ctx : UtxoProcessingContext},
      CommitsTo R.coinAgeActivation U ctx.acceptedTxIds ctx.multisetHash ctx.mergesetDiff →
      (∀ b ∈ merged, NoOverride b.2) → AcceptsNewIds R U pov ctx merged →
      ∃ ctx', merged.foldlM (R.acceptBlock U.get? pov) ctx = .ok ctx' ∧
        CommitsTo R.coinAgeActivation U ctx'.acceptedTxIds ctx'.multisetHash
          ctx'.mergesetDiff := by
  induction merged with
  | nil => exact fun h _ _ => ⟨_, rfl, h⟩
  | cons b merged ih =>
    intro ctx h hover hnew
    obtain ⟨ctx₁, hok₁, h₁⟩ := commitsTo_acceptBlock h (hover b mem_cons_self) hnew.1
    obtain ⟨ctx₂, hok₂, h₂⟩ := ih h₁ (fun b' hb' => hover b' (mem_cons_of_mem _ hb'))
      (hnew.2 ctx₁ hok₁)
    refine ⟨ctx₂, ?_, h₂⟩
    rw [foldlM_cons, hok₁]
    exact hok₂

end UtxoRules

open UtxoRules in
/-- **The multiset commits exactly the UTXO set.** If the accumulator of the selected parent
holds its set, the accepted transactions have new ids and none of them spends an overridden
outpoint, the calculation succeeds and the accumulator holds the set under the calculated
diff. -/
theorem utxo_commitment_exact (R : UtxoRules) (U : UtxoCollection) (m : MuHash) (pov : ℕ)
    (selectedParent : BlockBody) (mergeset : List BlockBody)
    (hstart : m.Holds (UtxoCollection.elements R.coinAgeActivation U))
    (hnew : CalculatesNewIds R U m pov selectedParent mergeset)
    (hover : ∀ body ∈ selectedParent :: mergeset, NoOverride body) :
    ∃ ctx, R.calculateUtxoState U.get? m pov selectedParent mergeset = .ok ctx ∧
      ctx.multisetHash.Holds
        (UtxoCollection.elements R.coinAgeActivation (ctx.mergesetDiff.writeTo U)) := by
  obtain ⟨ctx₁, hok₁, h₁⟩ := commitsTo_acceptCoinbase pov hstart hnew.1
  obtain ⟨ctx₂, hok₂, h₂⟩ := commitsTo_acceptBlocks (mergedBlocks selectedParent mergeset) h₁
    (forall_mem_cons.mpr ⟨hover _ mem_cons_self, forall_mem_map.mpr fun body hbody =>
      hover body (mem_cons_of_mem _ hbody)⟩)
    (hnew.2 ctx₁ hok₁)
  refine ⟨ctx₂, ?_, h₂.holds⟩
  rw [calculateUtxoState, hok₁]
  exact hok₂

/-- Rules that pass every populated transaction, with the coin-age era from score 20. -/
def sampleUtxoRules : UtxoRules :=
  ⟨20, fun _ _ => false, fun _ _ _ => some 0⟩

/-- A block whose coinbase has id `coinbase` and whose one transaction spends `spent`. -/
def sampleBody (coinbase id : Hash) (spent : TransactionOutpoint) : BlockBody :=
  ⟨⟨coinbase, [], [⟨7, ⟨0, []⟩⟩], true⟩, [⟨id, [spent], [⟨5, ⟨0, []⟩⟩], false⟩],
    List.nodup_singleton spent⟩

/-- The accumulator of a set that nothing was ever removed from. -/
def sampleMuHash (U : UtxoCollection) : MuHash :=
  ⟨UtxoCollection.elements 20 U, 0⟩

/-- A coin from before the coin-age era is spent in it, and the coin this creates is spent by
a later block of the same mergeset. -/
theorem utxo_commitment_exact_mergeset :
    ∃ ctx, sampleUtxoRules.calculateUtxoState (sampleCoin 5 10).get?
        (sampleMuHash (sampleCoin 5 10)) 30 (sampleBody 2 3 ⟨1, 0⟩) [sampleBody 4 5 ⟨3, 0⟩]
          = .ok ctx ∧
      ctx.multisetHash.Holds (UtxoCollection.elements sampleUtxoRules.coinAgeActivation
        (ctx.mergesetDiff.writeTo (sampleCoin 5 10))) := by
  refine utxo_commitment_exact sampleUtxoRules (sampleCoin 5 10) (sampleMuHash (sampleCoin 5 10))
    30 (sampleBody 2 3 ⟨1, 0⟩) [sampleBody 4 5 ⟨3, 0⟩] (zero_add _).symm ?_ ?_
  · refine ⟨⟨by decide, by decide⟩, fun ctx h => ?_⟩
    cases h
    refine ⟨⟨by decide, by decide⟩, fun ctx h => ?_⟩
    cases h
    exact ⟨⟨by decide, by decide⟩, fun ctx h => trivial⟩
  · intro body hbody
    rcases mem_pair.mp hbody with rfl | rfl <;> unfold UtxoRules.NoOverride <;> decide

/-- The coinbase of the selected parent creates an outpoint the view has: the accumulator
holds both coins, the set only the new one. -/
theorem utxo_commitment_duplicate_id :
    (sampleMuHash (sampleCoin 5 10)).Holds (UtxoCollection.elements 20 (sampleCoin 5 10)) ∧
      ∃ ctx, sampleUtxoRules.calculateUtxoState (sampleCoin 5 10).get?
          (sampleMuHash (sampleCoin 5 10)) 30 (sampleBody 1 3 ⟨2, 0⟩) [] = .ok ctx ∧
        ¬ ctx.multisetHash.Holds (UtxoCollection.elements 20
          (ctx.mergesetDiff.writeTo (sampleCoin 5 10))) := by
  refine ⟨(zero_add _).symm, _, rfl, fun h => ?_⟩
  exact absurd (congrArg Multiset.card h) (by decide)

end KeryxNode
