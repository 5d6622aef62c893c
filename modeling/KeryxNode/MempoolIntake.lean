import KeryxNode.MempoolGraph

/-!
# Intake of Transactions

A submission takes the lock of the mempool twice: once for the checks that come before the consensus
validates the transaction, and once to insert it. The first step refuses a response or a challenge
that is pending already, but only the second step registers one, and another submission may get in
between.

## Main results

* `ai_deduplicated`: no response or challenge is pending twice in a run whose insertions find room
  in the indexes.
* `ai_duplicated_between_checks`: two responses that are checked before either is inserted.
-/

namespace KeryxNode

open Tx List

namespace Mempool

variable {F : Type} [LinearOrder F] {P : Params F}

variable {mempool : Mempool F}

/-! ### Pending responses and challenges -/

/-- The request and the responder key of the response a transaction carries. -/
def responseKey? (tx : Tx.Transaction) : Option (List UInt8 × Option (List UInt8)) :=
  (response? tx).map fun resp => (resp.requestHash, resp.responder.map AiResponder.escrowPubkey)

/-- The index of pending responses, request and responder key together. -/
def pendingResponses (mempool : Mempool F) : List ((List UInt8 × Option (List UInt8)) × Hash) :=
  mempool.aiResponseIndex.map fun entry => ((entry.1, entry.2.1), entry.2.2)

/-- The pending responses to a request. -/
def responsesTo (mempool : Mempool F) (request : List UInt8) :
    List ((List UInt8 × Option (List UInt8)) × Hash) :=
  mempool.pendingResponses.filter fun entry => decide (entry.1.1 = request)

section Lists

variable {α : Type}

/-- A pool transaction carries a key. -/
def Carries (carried : Tx.Transaction → Option α) (pool : TransactionsPool F) (id : Hash) (k : α) :
    Prop :=
  ∃ tx, pool.get id = some tx ∧ carried tx.mtx.tx = some k

/-- An index lists exactly the pool transactions that carry a key, no two of them the same one. -/
structure Lists (carried : Tx.Transaction → Option α) (index : List (α × Hash))
    (pool : TransactionsPool F) : Prop where
  mem : ∀ e, e ∈ index ↔ Carries carried pool e.2 e.1
  one : ∀ {id id' k}, Carries carried pool id k → Carries carried pool id' k → id = id'

namespace Lists

variable {carried : Tx.Transaction → Option α} {index index' : List (α × Hash)}
  {pool pool' : TransactionsPool F} {id : Hash} {tx tx' : MempoolTransaction}
  (hL : Lists carried index pool)
include hL

/-- Nothing is listed for a transaction that carries nothing. -/
theorem eq_filter (hnone : ∀ k, ¬ Carries carried pool id k) :
    index = index.filter fun e => decide (e.2 ≠ id) := by
  refine (filter_eq_self.mpr fun e he => ?_).symm
  rw [decide_eq_true_eq]
  exact fun hid => hnone e.1 (hid ▸ (hL.mem e).mp he)

theorem removed (hget : ∀ x, pool'.get x = if x = id then none else pool.get x)
    (hindex : ∀ e, e ∈ index' ↔ e.2 ≠ id ∧ e ∈ index) : Lists carried index' pool' := by
  have hcarries : ∀ {x k}, Carries carried pool' x k ↔ x ≠ id ∧ Carries carried pool x k := by
    intro x k
    rw [Carries, hget]
    by_cases hx : x = id <;> simp [hx, Carries]
  refine ⟨fun e => ?_, fun h h' => hL.one (hcarries.mp h).2 (hcarries.mp h').2⟩
  rw [hindex, hcarries, hL.mem]

theorem replaced (hget : ∀ x, pool'.get x = if x = id then some tx' else pool.get x)
    (htx : pool.get id = some tx) (hsame : tx'.mtx.tx = tx.mtx.tx) : Lists carried index pool' := by
  have hcarries : ∀ {x k}, Carries carried pool' x k ↔ Carries carried pool x k := by
    intro x k
    rw [Carries, Carries, hget]
    by_cases hx : x = id <;> simp [hx, htx, hsame]
  exact ⟨fun e => (hL.mem e).trans hcarries.symm,
    fun h h' => hL.one (hcarries.mp h) (hcarries.mp h')⟩

theorem added (hget : ∀ x, pool'.get x = if x = id then some tx else pool.get x)
    (hnew : pool.get id = none) (hfresh : ∀ e ∈ index, carried tx.mtx.tx ≠ some e.1)
    (hindex : ∀ e, e ∈ index' ↔ e ∈ index ∨ e.2 = id ∧ carried tx.mtx.tx = some e.1) :
    Lists carried index' pool' := by
  have hcarries : ∀ {x k}, Carries carried pool' x k ↔
      Carries carried pool x k ∨ x = id ∧ carried tx.mtx.tx = some k := by
    intro x k
    rw [Carries, Carries, hget]
    by_cases hx : x = id <;> simp [hx, hnew]
  refine ⟨fun e => by rw [hindex, hcarries, hL.mem], fun {x x' k} h h' => ?_⟩
  have hold : Carries carried pool x k ∨ Carries carried pool x' k →
      carried tx.mtx.tx ≠ some k := by
    rintro (h | h)
    · exact hfresh (k, x) ((hL.mem (k, x)).mpr h)
    · exact hfresh (k, x') ((hL.mem (k, x')).mpr h)
  rcases hcarries.mp h, hcarries.mp h' with ⟨h | h, h' | h'⟩
  · exact hL.one h h'
  · exact absurd h'.2 (hold (.inl h))
  · exact absurd h.2 (hold (.inr h'))
  · exact h.1.trans h'.1.symm

end Lists

end Lists

/-- The indexes list what the pool transactions carry: one response to a request from a responder,
one challenge of a response, and no more responses to a request than may be pending. -/
structure AiIndexed (mempool : Mempool F) : Prop where
  responses : Lists responseKey? mempool.pendingResponses mempool.transactionPool
  challenges : Lists challengedHash? mempool.aiChallengeIndex mempool.transactionPool
  capped : ∀ request, (mempool.responsesTo request).length ≤ maxPendingAiResponsesPerRequest

/-- The indexes have room for what a transaction carries. -/
def AiFresh (tx : Tx.Transaction) (mempool : Mempool F) : Prop :=
  (∀ k ∈ responseKey? tx, (∀ e ∈ mempool.pendingResponses, e.1 ≠ k) ∧
      (mempool.responsesTo k.1).length < maxPendingAiResponsesPerRequest) ∧
    ∀ hash ∈ challengedHash? tx, ∀ e ∈ mempool.aiChallengeIndex, e.1 ≠ hash

instance (tx : Tx.Transaction) (mempool : Mempool F) : Decidable (AiFresh tx mempool) :=
  inferInstanceAs (Decidable (_ ∧ _))

/-- The entries of a transaction are taken out of both indexes. -/
theorem AiIndexed.forgotten {mempool' : Mempool F} {id : Hash} {removeRedeemers : Bool}
    {r : Except RuleError Unit} (hA : mempool.AiIndexed)
    (h : removePoolTransaction P removeRedeemers id mempool = some (r, mempool')) :
    (∀ x, mempool'.transactionPool.get x
        = if x = id then none else mempool.transactionPool.get x) ∧
      mempool'.pendingResponses = mempool.pendingResponses.filter (fun e => decide (e.2 ≠ id)) ∧
      mempool'.aiChallengeIndex = mempool.aiChallengeIndex.filter fun e => decide (e.2 ≠ id) := by
  obtain ⟨pool, orphans, hpool, ⟨hnone, rfl⟩ | ⟨tx, htx, rfl⟩⟩ := of_removePoolTransaction h
  · have hnothing : ∀ {α : Type} {carried : Tx.Transaction → Option α} (k : α),
        ¬ Carries carried mempool.transactionPool id k := by
      rintro α carried k ⟨tx, htx, -⟩
      rw [hnone] at htx
      cases htx
    exact ⟨hpool.get, hA.responses.eq_filter hnothing, hA.challenges.eq_filter hnothing⟩
  · have hcarries : ∀ {α : Type} {carried : Tx.Transaction → Option α} {k : α},
        Carries carried mempool.transactionPool id k ↔ carried tx.mtx.tx = some k := by
      simp [Carries, htx]
    refine ⟨hpool.get, ?_, ?_⟩
    · cases hresp : response? tx.mtx.tx with
      | none =>
        rw [forgetAi, hresp]
        refine hA.responses.eq_filter fun k hk => ?_
        rw [hcarries, responseKey?, hresp] at hk
        cases hk
      | some resp =>
        rw [pendingResponses, forgetAi, hresp, pendingResponses, filter_map]
        congr 1
        refine filter_congr fun e he => ?_
        have hrequest : e.2.2 = id → e.1 = resp.requestHash := by
          intro hid
          have hk := (hA.responses.mem _).mp (mem_map_of_mem he)
          rw [hid, hcarries, responseKey?, hresp] at hk
          exact (congrArg Prod.fst (Option.some.inj hk)).symm
        by_cases hid : e.2.2 = id <;> simp [hid, hrequest]
    · cases hhash : challengedHash? tx.mtx.tx with
      | none =>
        rw [forgetAi, hhash]
        refine hA.challenges.eq_filter fun k hk => ?_
        rw [hcarries, hhash] at hk
        cases hk
      | some hash =>
        rw [forgetAi, hhash]
        refine filter_congr fun e he =>
          decide_eq_decide.mpr (not_congr ⟨fun h => ?_, fun h => ?_⟩)
        · exact hA.challenges.one ((hA.challenges.mem e).mp he) (hcarries.mpr (h ▸ hhash))
        · have hk := (hA.challenges.mem e).mp he
          rw [h, hcarries, hhash] at hk
          exact (Option.some.inj hk).symm

/-- A removal keeps the indexes exact, and the room in them. -/
theorem lasting_aiIndexed (new : List Tx.Transaction) :
    Lasting P fun mempool : Mempool F =>
      mempool.AiIndexed ∧ ∀ tx ∈ new, AiFresh tx mempool where
  removed removeRedeemers id mempool r mempool' h hremove := by
    obtain ⟨hA, hfresh⟩ := h
    obtain ⟨hget, hr, hc⟩ := hA.forgotten hremove
    have hto : ∀ request, (mempool'.responsesTo request).length
        ≤ (mempool.responsesTo request).length := by
      intro request
      rw [responsesTo, hr]
      exact (filter_sublist.filter _).length_le
    refine ⟨⟨hA.responses.removed hget fun e => ?_, hA.challenges.removed hget fun e => ?_,
      fun request => (hto request).trans (hA.capped request)⟩, fun tx htx => ?_⟩
    · rw [hr, mem_filter, decide_eq_true_eq, and_comm]
    · rw [hc, mem_filter, decide_eq_true_eq, and_comm]
    · obtain ⟨hresponse, hchallenge⟩ := hfresh tx htx
      refine ⟨fun k hk => ⟨fun e he => ?_, (hto k.1).trans_lt (hresponse k hk).2⟩,
        fun hash hhash e he => ?_⟩
      · exact (hresponse k hk).1 e (mem_of_mem_filter (hr ▸ he))
      · exact hchallenge hash hhash e (mem_of_mem_filter (hc ▸ he))
  scanned _ _ h :=
    ⟨⟨⟨h.1.responses.mem, h.1.responses.one⟩, ⟨h.1.challenges.mem, h.1.challenges.one⟩, h.1.capped⟩,
      h.2⟩
  others _ _ h := ⟨⟨h.1.responses, h.1.challenges, h.1.capped⟩, h.2⟩

/-- A transaction that the indexes have room for is registered. -/
theorem AiIndexed.registered {tx : MempoolTransaction} {size : ℕ} {pool : TransactionsPool F}
    (hA : mempool.AiIndexed) (hfresh : AiFresh tx.mtx.tx mempool)
    (h : mempool.transactionPool.addMempoolTransaction P tx size = some pool) :
    (registerAi (P.idOf tx.mtx) tx.mtx.tx { mempool with transactionPool := pool }).AiIndexed := by
  obtain ⟨-, -, hnew, hget, -⟩ := TransactionsPool.addMempoolTransaction_eq_some h
  obtain ⟨hresponse, hchallenge⟩ := hfresh
  have hmem : ∀ {α : Type} (index : List (α × Hash)) (o : Option α) (e : α × Hash),
      e ∈ index ++ o.toList.map (·, P.idOf tx.mtx) ↔
        e ∈ index ∨ e.2 = P.idOf tx.mtx ∧ o = some e.1 := by
    intro α index o e
    cases o <;> simp [Prod.ext_iff, and_comm, eq_comm]
  set mempool' := registerAi (P.idOf tx.mtx) tx.mtx.tx { mempool with transactionPool := pool }
  have hr : mempool'.pendingResponses = mempool.pendingResponses ++
      (responseKey? tx.mtx.tx).toList.map (·, P.idOf tx.mtx) := by
    rw [responseKey?]
    dsimp only [mempool', registerAi]
    cases response? tx.mtx.tx <;> simp [pendingResponses]
  have hc : mempool'.aiChallengeIndex = mempool.aiChallengeIndex ++
      (challengedHash? tx.mtx.tx).toList.map (·, P.idOf tx.mtx) := by
    dsimp only [mempool', registerAi]
    cases hhash : challengedHash? tx.mtx.tx with
    | none => simp
    | some hash =>
      dsimp only
      rw [filter_eq_self.mpr fun e he => decide_eq_true (hchallenge hash hhash e he)]
      rfl
  refine ⟨hr ▸ hA.responses.added hget hnew (fun e he hk => (hresponse _ hk).1 e he rfl)
      (hmem _ _), hc ▸ hA.challenges.added hget hnew (fun e he hk => hchallenge _ hk e he rfl)
      (hmem _ _), fun request => ?_⟩
  rw [responsesTo, hr, filter_append]
  have hcapped := hA.capped request
  rw [responsesTo] at hcapped
  cases hk : responseKey? tx.mtx.tx with
  | none => simpa using hcapped
  | some k =>
    by_cases hrequest : k.1 = request
    · have hroom := (hresponse k hk).2
      rw [responsesTo] at hroom
      simpa [hrequest] using Nat.succ_le_of_lt hroom
    · simpa [hrequest] using hcapped

/-- An operation inserts only what the indexes have room for. -/
def Operation.InsertsFresh (mempool : Mempool F) : Operation → Prop
  | .insert _ m _ _ _ _ => AiFresh m.tx mempool
  | _ => True

instance (mempool : Mempool F) (op : Operation) : Decidable (op.InsertsFresh mempool) :=
  match op with
  | .insert _ m _ _ _ _ => inferInstanceAs (Decidable (AiFresh m.tx mempool))
  | .remove .. | .newBlock .. | .revalidate .. | .expireOrphans .. | .expireAccepted ..
  | .expireLowPriority .. => inferInstanceAs (Decidable True)

theorem invariant_aiIndexed : Invariant P fun mempool : Mempool F =>
    mempool.AiIndexed ∧ ∀ tx ∈ [], AiFresh tx mempool where
  toLasting := lasting_aiIndexed []
  start := by
    have hempty : ∀ {α : Type} {carried : Tx.Transaction → Option α},
        Lists carried [] ({} : TransactionsPool F) := by
      refine ⟨fun e => iff_of_false not_mem_nil ?_, fun h => ?_⟩
      · rintro ⟨_, ⟨⟩, _⟩
      · obtain ⟨_, ⟨⟩, _⟩ := h
    exact ⟨⟨hempty, hempty, fun _ => Nat.zero_le _⟩, nofun⟩
  updated _ h htx hsame _ :=
    ⟨⟨h.1.responses.replaced TransactionsPool.get_put htx hsame,
      h.1.challenges.replaced TransactionsPool.get_put htx hsame, h.1.capped⟩, nofun⟩

/-- **Responses and challenges are not duplicated** in any run whose insertions bring in only what
the indexes have room for, however the steps of the submissions interleave. -/
theorem ai_deduplicated (P : Params F) (operations : List Operation)
    (hfresh : ∀ before op later mempool, operations = before ++ op :: later →
      after P before = some mempool → op.InsertsFresh mempool)
    (mempool : Mempool F) (hrun : after P operations = some mempool) :
    mempool.AiIndexed ∧ ∀ request (ids : Finset Hash),
      (∀ id ∈ ids, ∃ key, Carries responseKey? mempool.transactionPool id (request, key)) →
        ids.card ≤ maxPendingAiResponsesPerRequest := by
  have hfits : ∀ before op later start, operations = before ++ op :: later →
      after P before = some start → start.AiIndexed ∧ (∀ tx ∈ [], AiFresh tx start) →
      op.Fits P (fun mempool => mempool.AiIndexed ∧ ∀ tx ∈ [], AiFresh tx mempool) start := by
    intro before op later start hsplit hstart hI
    have hop := hfresh before op later start hsplit hstart
    cases op with
    | insert _ m _ _ _ _ =>
      refine ⟨_, lasting_aiIndexed [m.tx], ⟨hI.1, forall_mem_singleton.mpr hop⟩,
        fun mempool h => ⟨⟨h.1, nofun⟩, fun pool priority daaScore size hpool => ?_⟩⟩
      exact ⟨h.1.registered (h.2 m.tx mem_cons_self) hpool, nofun⟩
    | _ => trivial
  obtain ⟨-, hA, -⟩ := invariant_aiIndexed.of_after hfits hrun
  refine ⟨hA, fun request ids hids => ?_⟩
  refine (Finset.card_le_card fun id hid => ?_).trans
    ((toFinset_card_le ((mempool.responsesTo request).map Prod.snd)).trans ?_)
  · obtain ⟨key, hkey⟩ := hids id hid
    rw [mem_toFinset, mem_map]
    exact ⟨((request, key), id), mem_filter.mpr ⟨(hA.responses.mem _).mpr hkey,
      decide_eq_true rfl⟩, rfl⟩
  · rw [length_map]
    exact hA.capped request

/-! ### Two responses between check and insertion -/

/-- A response to one request, without a responder key. -/
def sampleResponse (id : ℕ) : MutableTransaction :=
  { MutableTransaction.fromTx
      { inputs := [], outputs := [], lockTime := id, subnetworkId := .aiResponse
        payload := replicate aiResponsePayloadLen 0 } with
    calculatedFee := some 0
    calculatedNonContextualMasses := some (1, 1) }

/-- Two submissions are checked before either of them inserts its response; both responses end up in
the pool, under the same request and key. -/
theorem ai_duplicated_between_checks :
    (∀ id ∈ [1, 2], ∃ pre, ({} : Mempool ℕ).preValidateAndPopulateTransaction sampleParams
        (.fromTx (sampleResponse id).tx) .forbidden = some (.ok pre) ∧
        pre.transaction.tx = (sampleResponse id).tx) ∧
      ∃ mempool, after sampleParams
          [sampleInsert (sampleResponse 1), sampleInsert (sampleResponse 2)] = some mempool ∧
        ∃ key, Carries responseKey? mempool.transactionPool 1 key ∧
          Carries responseKey? mempool.transactionPool 2 key := by
  have hchecked : ∀ id ∈ [1, 2], ∃ pre ∈ (({} : Mempool ℕ).preValidateAndPopulateTransaction
      sampleParams (.fromTx (sampleResponse id).tx) .forbidden).bind Except.toOption,
        pre.transaction.tx = (sampleResponse id).tx := by
    decide +kernel
  have hrun : ∃ mempool ∈ after sampleParams [sampleInsert (sampleResponse 1),
      sampleInsert (sampleResponse 2)],
      (∃ tx ∈ mempool.transactionPool.get 1,
        responseKey? tx.mtx.tx = some (replicate 32 0, none)) ∧
      ∃ tx ∈ mempool.transactionPool.get 2,
        responseKey? tx.mtx.tx = some (replicate 32 0, none) := by
    decide +kernel
  refine ⟨fun id hid => ?_, ?_⟩
  · obtain ⟨pre, hpre, htx⟩ := hchecked id hid
    exact ⟨pre, eq_some_ok_of_mem hpre, htx⟩
  · obtain ⟨mempool, hmempool, hcarries⟩ := hrun
    exact ⟨mempool, hmempool, _, hcarries⟩

/-- The first response leaves before the second one comes in. -/
def sampleResponses : List Operation :=
  [sampleInsert (sampleResponse 1), .remove 1 true, sampleInsert (sampleResponse 2)]

/-- Each insertion finds the indexes empty, so the second response is listed alone. -/
theorem ai_deduplicated_responses :
    ∃ mempool, after sampleParams sampleResponses = some mempool ∧ mempool.AiIndexed := by
  have hsome : (after sampleParams sampleResponses).isSome = true := by decide +kernel
  obtain ⟨mempool, hrun⟩ := Option.isSome_iff_exists.mp hsome
  exact ⟨mempool, hrun, (ai_deduplicated sampleParams sampleResponses
    (forall_steps_of_check (C := Operation.InsertsFresh) (by decide +kernel))
    mempool hrun).1⟩

end Mempool

end KeryxNode
