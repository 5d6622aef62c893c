import KeryxNode.FinalityFlush
import KeryxNode.StreakRecords
import KeryxNode.WarmupRefold

/-!
# The Rows of a Run

A run of blocks folded from an empty ledger reports every fact once: no outpoint is burned
twice, no identity is sighted twice, no request is rewarded twice, and inside a block no
identity has two strike rows. So the rows of the run, written block after block, never meet a
stored key. `Accounted` carries this along the run: the rows reported so far beside what the
ledger remembers of them.
-/

namespace KeryxNode

open BondBook List RowKey StoreWrite OrdMap ServiceReward

/-! ### Keys by store -/

namespace RowKey

/-- The outpoint of a burn row. -/
def burn? : RowKey → Option TransactionOutpoint
  | burn o => some o
  | _ => none

/-- The score and identity of a strike row. -/
def strike? : RowKey → Option (ℕ × Hash)
  | strike daa miner => some (daa, miner)
  | _ => none

/-- The identity of a sighting row. -/
def firstSeen? : RowKey → Option Hash
  | firstSeen miner => some miner
  | _ => none

/-- The request of a reward row. -/
def reward? : RowKey → Option Hash
  | reward rh => some rh
  | _ => none

/-- Keys are distinct if they are store by store. -/
theorem nodup_of_stores {ks : List RowKey} (hburn : (ks.filterMap burn?).Nodup)
    (hstrike : (ks.filterMap strike?).Nodup) (hseen : (ks.filterMap firstSeen?).Nodup)
    (hreward : (ks.filterMap reward?).Nodup) : ks.Nodup := by
  induction ks with
  | nil => exact nodup_nil
  | cons k ks ih =>
    have htail : ∀ {K : Type} (f : RowKey → Option K) {x : K}, f k = some x →
        ((k :: ks).filterMap f).Nodup → k ∉ ks ∧ (ks.filterMap f).Nodup := by
      intro K f x hx h
      rw [filterMap_cons_some hx, nodup_cons] at h
      exact ⟨fun hk => h.1 (mem_filterMap.mpr ⟨k, hk, hx⟩), h.2⟩
    refine nodup_cons.mpr ?_
    cases k with
    | burn o => exact (htail burn? rfl hburn).imp_right (ih · hstrike hseen hreward)
    | strike daa miner => exact (htail strike? rfl hstrike).imp_right (ih hburn · hseen hreward)
    | firstSeen miner => exact (htail firstSeen? rfl hseen).imp_right (ih hburn hstrike · hreward)
    | reward rh => exact (htail reward? rfl hreward).imp_right (ih hburn hstrike hseen ·)

end RowKey

/-- The keys of rows that lie in one store. -/
def keysIn {K : Type} (f : RowKey → Option K) (ws : List StoreWrite) : List K :=
  (ws.map key).filterMap f

@[simp] theorem keysIn_append {K : Type} (f : RowKey → Option K) (ws ws' : List StoreWrite) :
    keysIn f (ws ++ ws') = keysIn f ws ++ keysIn f ws' := by
  rw [keysIn, map_append, filterMap_append]
  rfl

/-- Distinct keys are distinct in each store. -/
theorem nodup_keysIn {K : Type} {f : RowKey → Option K}
    (hf : ∀ k k' x, f k = some x → f k' = some x → k = k') {ws : List StoreWrite}
    (h : (ws.map key).Nodup) : (keysIn f ws).Nodup :=
  h.filterMap fun k k' x hk hk' => hf k k' x hk hk'

theorem RowKey.burn?_inj (k k' : RowKey) (o : TransactionOutpoint) (h : k.burn? = some o)
    (h' : k'.burn? = some o) : k = k' := by
  cases k <;> cases k' <;> simp_all [burn?]

theorem RowKey.strike?_inj (k k' : RowKey) (x : ℕ × Hash) (h : k.strike? = some x)
    (h' : k'.strike? = some x) : k = k' := by
  cases k <;> cases k' <;> simp_all [strike?, Prod.ext_iff]

theorem RowKey.firstSeen?_inj (k k' : RowKey) (id : Hash) (h : k.firstSeen? = some id)
    (h' : k'.firstSeen? = some id) : k = k' := by
  cases k <;> cases k' <;> simp_all [firstSeen?]

/-- A strike key carries the score of its row. -/
theorem exists_of_mem_strikeKeys {ws : List StoreWrite} {x : ℕ × Hash}
    (h : x ∈ keysIn strike? ws) : ∃ w ∈ ws, w.daa = x.1 := by
  obtain ⟨k, hk, hx⟩ := mem_filterMap.mp h
  obtain ⟨w, hw, rfl⟩ := mem_map.mp hk
  refine ⟨w, hw, ?_⟩
  cases w <;> simp_all [key, strike?, daa, Prod.ext_iff]

namespace FoldOutcome

variable (o : FoldOutcome) (daa : ℕ)

/-- The resets that reach the log: those of identities the block does not strike. -/
def loggedResets (o : FoldOutcome) : List (Hash × ℕ) :=
  o.resets.filter fun r => decide (r.1 ∉ o.missed)

/-- The rows of a block, kind by kind. -/
theorem writes_eq :
    o.writes daa = o.sightings.map (fun id => .firstSeen id daa) ++
      o.misses.flatMap (fun m => m.burned.map (fun c => .burn c.outpoint daa) ++
        [.strike daa m.miner (FlushState.missRecord daa m)]) ++
      o.loggedResets.map (fun r => .strike daa r.1 ⟨0, r.2⟩) ++
      o.rewards.map fun r => .reward r.requestHash ⟨r.winner, r.amount, daa, r.spk⟩ := by
  have hresets : ∀ l : List (Hash × ℕ),
      l.flatMap (fun r => ServiceEvent.writes daa o.missed (.reset r.1 r.2))
        = (l.filter fun r => decide (r.1 ∉ o.missed)).map fun r => .strike daa r.1 ⟨0, r.2⟩ := by
    intro l
    induction l with
    | nil => rfl
    | cons r l ih =>
      rw [flatMap_cons, ih]
      by_cases hr : r.1 ∈ o.missed <;> simp [ServiceEvent.writes, hr]
  simp only [writes, events, flatMap_append, flatMap_map, hresets, loggedResets]
  simp only [ServiceEvent.writes, ← map_eq_flatMap]

@[simp] theorem burnKeys_writes :
    keysIn burn? (o.writes daa) = burnedOutpoints o.misses := by
  simp [keysIn, writes_eq, filterMap_flatMap, Function.comp_def,
    key, burn?, burnedOutpoints]

@[simp] theorem seenKeys_writes :
    keysIn firstSeen? (o.writes daa) = o.sightings := by
  simp [keysIn, writes_eq, filterMap_flatMap, Function.comp_def, key, firstSeen?]

@[simp] theorem rewardKeys_writes :
    keysIn reward? (o.writes daa) = o.rewards.map requestHash := by
  simp [keysIn, writes_eq, filterMap_flatMap, Function.comp_def, key, reward?]

@[simp] theorem strikeKeys_writes :
    keysIn strike? (o.writes daa)
      = (o.missed ++ o.loggedResets.map Prod.fst).map fun id => (daa, id) := by
  simp [keysIn, writes_eq, filterMap_flatMap, Function.comp_def,
    key, strike?, missed, ← map_eq_flatMap]

end FoldOutcome

/-! ### Rewards -/

/-- The rewards decided so far: one per request, of accepted requests only; a rewarded request
that is still pending has its winner. -/
structure RewardLog (accepted rewarded : List Hash) (b : RequestBook) : Prop where
  nodup : rewarded.Nodup
  paid : ∀ rh ∈ rewarded, ∀ req, b.pending.get? rh = some req → req.winner.isSome = true
  sourced : ∀ rh ∈ rewarded, rh ∈ accepted
  pending : ∀ rh req, b.pending.get? rh = some req → rh ∈ accepted

namespace RewardLog

variable {accepted rewarded : List Hash} {b : RequestBook} {c : LedgerConfig} {daa : ℕ}

theorem empty : RewardLog [] [] {} :=
  ⟨nodup_nil, fun _ h => (by cases h), fun _ h => (by cases h), fun _ _ h => (by cases h)⟩

section

variable (h : RewardLog accepted rewarded b)
include h

/-- Pending entries that stem from earlier ones and keep their winners keep the log. -/
theorem of_pending {b' : RequestBook} (hsub : ∀ rh req', b'.pending.get? rh = some req' →
      ∃ req, b.pending.get? rh = some req ∧ req'.winner = req.winner) :
    RewardLog accepted rewarded b' where
  nodup := h.nodup
  paid rh hrh req' hreq' := by
    obtain ⟨req, hreq, hwinner⟩ := hsub rh req' hreq'
    rw [hwinner]
    exact h.paid rh hrh req hreq
  sourced := h.sourced
  pending rh req' hreq' := by
    obtain ⟨req, hreq, -⟩ := hsub rh req' hreq'
    exact h.pending rh req hreq

/-- Rewriting a pending entry with its winner kept. -/
theorem insertPending {rh : Hash} {req req' : PendingRequest} (hreq : b.pending.get? rh = some req)
    (hwinner : req'.winner = req.winner) :
    RewardLog accepted rewarded { b with pending := b.pending.insert rh req' } := by
  exact h.of_pending fun _ _ hx => forall_get?_insert hx ⟨req, hreq, hwinner⟩
    fun _ x hx => ⟨x, hx, rfl⟩

/-- Admitting a request that was never accepted. -/
theorem admitRequest (requestRewards : List (Hash × ℕ))
    {rq : Hash × ℕ × ℕ} (hnew : rq.1 ∉ accepted) :
    RewardLog (accepted ++ [rq.1]) rewarded (b.admitRequest c daa requestRewards rq) := by
  have hpending : ∀ rh req, (b.admitRequest c daa requestRewards rq).pending.get? rh = some req →
      rh = rq.1 ∨ b.pending.get? rh = some req := by
    intro rh req hreq
    simp only [RequestBook.admitRequest] at hreq
    split at hreq
    · exact .inr hreq
    · rw [get?_insert] at hreq
      split at hreq
      · next heq => exact .inl heq
      · exact .inr hreq
  refine ⟨h.nodup, fun rh hrh req hreq => ?_, fun rh hrh => ?_, fun rh req hreq => ?_⟩
  · rcases hpending rh req hreq with rfl | hreq
    · exact absurd (h.sourced _ hrh) hnew
    · exact h.paid rh hrh req hreq
  · exact mem_append_left _ (h.sourced rh hrh)
  · rcases hpending rh req hreq with rfl | hreq
    · exact mem_append_right _ (mem_singleton_self _)
    · exact mem_append_left _ (h.pending rh req hreq)

end

theorem admitRequests (requestRewards : List (Hash × ℕ)) :
    ∀ (requests : List (Hash × ℕ × ℕ)) {accepted : List Hash} {b : RequestBook},
      RewardLog accepted rewarded b → (accepted ++ requests.map Prod.fst).Nodup →
      RewardLog (accepted ++ requests.map Prod.fst) rewarded
        (requests.foldl (RequestBook.admitRequest c daa requestRewards) b)
  | [], accepted, b, h, _ => by simpa using h
  | rq :: requests, accepted, b, h, hnodup => by
    rw [map_cons, append_cons] at hnodup
    have hnew : rq.1 ∉ accepted := fun hmem =>
      (nodup_append'.mp hnodup.of_append_left).2.2 hmem (mem_singleton_self _)
    rw [map_cons, append_cons]
    exact admitRequests requestRewards requests (h.admitRequest requestRewards hnew) hnodup

/-- An award is of a request without a winner. -/
theorem awardFirst (h : RewardLog accepted rewarded b) (rh : Hash) (credited : List Hash) :
    RewardLog accepted
      (rewarded ++ (b.awardFirst c rh credited).2.toList.map requestHash)
      (b.awardFirst c rh credited).1 := by
  obtain heq | ⟨req, winner, hreq, hwinner, heq⟩ := RequestBook.awardFirst_cases c b rh credited
  · rw [heq]
    simpa using h
  · have hnew : rh ∉ rewarded := by
      intro hmem
      have := h.paid rh hmem req hreq
      rw [hwinner] at this
      cases this
    rw [heq]
    refine ⟨?_, ?_, ?_, ?_⟩
    · refine h.nodup.append (nodup_singleton _) fun x hx hx' => ?_
      rw [mem_singleton.mp hx'] at hx
      exact hnew hx
    · intro x hx req' hreq'
      rw [get?_insert] at hreq'
      split at hreq'
      · rw [← Option.some.inj hreq']
        rfl
      · next hne =>
        rcases mem_append.mp hx with hx | hx
        · exact h.paid x hx req' hreq'
        · exact absurd (mem_singleton.mp hx) hne
    · exact forall_mem_append.mpr ⟨h.sourced, forall_mem_singleton.mpr (h.pending rh req hreq)⟩
    · exact fun _ _ hx => forall_get?_insert hx (h.pending rh req hreq) h.pending

/-- One response. -/
theorem answer {t : AnswerTrace}
    (h : RewardLog accepted (rewarded ++ t.rewards.map requestHash) t.book)
    (resp : Hash × Option Hash) :
    RewardLog accepted (rewarded ++ (t.answer c daa resp).rewards.map requestHash)
      (t.answer c daa resp).book := by
  obtain ⟨rh, none | r⟩ := resp
  · exact h
  · have hrespond : RewardLog accepted (rewarded ++ t.rewards.map requestHash)
        (t.book.respond daa rh r).1 := by
      simp only [RequestBook.respond]
      split
      · exact h.of_pending fun _ req hreq => ⟨req, hreq, rfl⟩
      · next req hreq => split <;> exact h.insertPending hreq rfl
    simp only [AnswerTrace.answer, map_append, ← append_assoc]
    exact hrespond.awardFirst rh _

/-- One visited request. -/
theorem visit {t : BookTrace}
    (h : RewardLog accepted (rewarded ++ t.rewards.map requestHash) t.book)
    (cohort : ℕ → List (Hash × Hash)) (rh : Hash) :
    RewardLog accepted
      (rewarded ++ (t.visit c daa cohort rh).rewards.map requestHash)
      (t.visit c daa cohort rh).book := by
  have hstep : ∀ {b : RequestBook} {rewarded : List Hash}, RewardLog accepted rewarded b →
      RewardLog accepted (rewarded ++
          (b.closeOrArm c daa cohort rh).reward.toList.map requestHash)
        (b.closeOrArm c daa cohort rh).book := by
    intro b rewarded h
    obtain heq | ⟨silent, heq⟩ | ⟨req, window, hreq, -, heq⟩ :=
      RequestBook.closeOrArm_cases cohort rh c daa b
    · rw [heq]
      simpa using h
    · rw [heq]
      simpa using h.of_pending fun _ x hx => ⟨x, of_get?_erase hx, rfl⟩
    · rw [heq]
      refine awardFirst (h.insertPending hreq ?_) rh _
      rfl
  simp only [BookTrace.visit, map_append, ← append_assoc]
  exact hstep h

/-- **One block** rewards each of its requests once, and none that was rewarded before. -/
theorem replay (h : RewardLog accepted rewarded b) {i : FoldInput}
    (hnodup : (accepted ++ i.requests.map Prod.fst).Nodup) (cohort : ℕ → List (Hash × Hash)) :
    RewardLog (accepted ++ i.requests.map Prod.fst)
      (rewarded ++ (b.replay c i cohort).rewards.map requestHash)
      (b.replay c i cohort).book := by
  have hopened : RewardLog accepted rewarded ((b.recordProducers i.producers).expire c i.daa) :=
    h.of_pending fun rh req hreq => ⟨req, (of_get?_filter hreq).1, rfl⟩
  have hadmitted := @admitRequests rewarded c i.daa i.requestRewards i.requests _ _ hopened hnodup
  have hanswered : RewardLog (accepted ++ i.requests.map Prod.fst)
      (rewarded ++ (b.answerAll c i).rewards.map requestHash)
      (b.answerAll c i).book := by
    refine foldlRecOn _ _ (motive := fun t : AnswerTrace =>
      RewardLog (accepted ++ i.requests.map Prod.fst)
        (rewarded ++ t.evict.rewards.map requestHash) t.evict.book) ?_ ?_
    · simp only [AnswerTrace.evict, map_nil, append_nil]
      exact hadmitted.of_pending fun _ req hreq => ⟨req, hreq, rfl⟩
    · intro t ht resp _
      have ht' : RewardLog (accepted ++ i.requests.map Prod.fst)
          (rewarded ++ t.rewards.map requestHash) t.book :=
        ht.of_pending fun _ req hreq => ⟨req, hreq, rfl⟩
      exact (ht'.answer resp).of_pending fun _ req hreq => ⟨req, hreq, rfl⟩
  refine foldlRecOn _ _ (motive := fun t : BookTrace =>
    RewardLog (accepted ++ i.requests.map Prod.fst)
      (rewarded ++ t.rewards.map requestHash) t.book) hanswered ?_
  exact fun t ht rh _ => ht.visit cohort rh

end RewardLog

/-! ### The account of a run -/

/-- What a ledger remembers of the rows reported so far, all below score `t`: their keys are
distinct, the vault holds what is not burned, exactly the sighted identities are known, no
strike record is as young as `t`, and no rewarded request is open. -/
structure Accounted (burnable t : ℕ) (accepted : List Hash) (added : List (Hash × EscrowClaim))
    (ws : List StoreWrite) (L : ServiceLedger) : Prop where
  scores : ∀ w ∈ ws, w.daa < t
  nodup : (ws.map key).Nodup
  vault : ∃ d ≤ t, HoldsLive burnable d (keysIn burn? ws) added L.vault
  sourced : Sourced added (keysIn burn? ws)
  sighted : ∀ id, L.sighted id = none ↔ id ∉ keysIn firstSeen? ws
  records : ∀ id e, L.strikeState id = some e → e.lastDaa < t
  rewards : RewardLog accepted (keysIn reward? ws) L.toRequestBook

/-- The sightings of a block are new, and known from then on. -/
theorem fold_sightings (L : ServiceLedger) (call : FoldCall) :
    (L.fold call).2.sightings.Nodup ∧
      (∀ id ∈ (L.fold call).2.sightings, L.sighted id = none) ∧ ∀ id,
        (L.fold call).1.sighted id = none ↔ L.sighted id = none ∧
          id ∉ (L.fold call).2.sightings := by
  obtain ⟨hnodup, hnew, hiff, -⟩ := openBlock_sightings L.toBondBook L.burnable call.input
  rw [ServiceLedger.fold, ServiceLedger.onChainBlockWithRewards, foldInner_normal]
  refine ⟨hnodup, hnew, fun id => ?_⟩
  rw [sighted_settle]
  exact hiff id

namespace Accounted

variable {burnable t : ℕ} {accepted : List Hash} {added : List (Hash × EscrowClaim)}
  {ws : List StoreWrite} {L : ServiceLedger} {call : FoldCall}

/-- The configuration is no part of the account. -/
theorem configure (h : Accounted burnable t accepted added ws L) (config : LedgerConfig) :
    Accounted burnable t accepted added ws (L.configure config) :=
  { h with }

theorem empty (burnable : ℕ) (c : LedgerConfig) :
    Accounted burnable 0 [] [] [] { toLedgerConfig := c } where
  scores _ hw := by cases hw
  nodup := nodup_nil
  vault := ⟨0, le_refl _, HoldsLive.empty burnable 0 _⟩
  sourced := Sourced.nil
  sighted _ := by simp [BondBook.sighted, keysIn]
  records _ _ he := by cases he
  rewards := RewardLog.empty

section

variable (h : Accounted burnable t accepted added ws L)
include h

/-- The stored rows of the account are the ones reported. -/
theorem later :
    ∀ w ∈ (({} : ServiceStores).writeAll ws).rows, w.daa < t := by
  intro w hw
  have hfresh : ({} : ServiceStores).Fresh ws := ⟨h.nodup, fun w _ => by cases w <;> rfl⟩
  rcases hfresh.mem_rows.mp hw with hw | hw
  · exact h.scores w hw
  · cases hw

/-- The block settles over records that are all older. -/
theorem settled (call : FoldCall) (ht : t ≤ call.input.daa) (hpos : 0 < call.input.daa) :
    Settled call.input.daa (L.toBondBook.openBlock L.burnable call.input none).1.1
      (L.toRequestBook.replay L.toLedgerConfig call.input call.cohort)
      (L.fold call).1.toBondBook (L.fold call).2.misses (L.fold call).2.resets := by
  obtain ⟨-, -, -, hstate⟩ := openBlock_sightings L.toBondBook L.burnable call.input
  have hsettle := Settled.of_settle hpos (fun id e he => lt_of_lt_of_le
      (h.records id e ((hstate id).symm.trans he)) ht) (L.v2At call.input.daa) call.isEstablished
    (L.toRequestBook.replay L.toLedgerConfig call.input call.cohort)
  have hfold := foldInner_normal L call.input call.cohort call.isEstablished
  rw [ServiceLedger.fold, ServiceLedger.onChainBlockWithRewards, hfold]
  exact hsettle

/-- The rows of a block that can follow: what the block reports of an accounted ledger is new
and settles cleanly. -/
theorem fold (hburnable : L.burnable = burnable) (ht : t ≤ call.input.daa)
    (hpos : 0 < call.input.daa) (hadm : Admitted (added ++ call.input.escrows))
    (hrequests : (accepted ++ call.input.requests.map Prod.fst).Nodup) :
    Accounted burnable (call.input.daa + 1) (accepted ++ call.input.requests.map Prod.fst)
        (added ++ call.input.escrows) (ws ++ (L.fold call).2.writes call.input.daa)
        (L.fold call).1 ∧
      CleanOutcome (({} : ServiceStores).writeAll ws) call.input.daa (L.fold call).2 := by
  obtain ⟨d, hd, hlive⟩ := h.vault
  rw [← hburnable] at hlive
  have hburn := hlive.nodup_foldInner h.sourced (nodup_keysIn burn?_inj h.nodup)
    (hd.trans ht) hadm call.isEstablished call.cohort
  obtain ⟨hvault, hsrc⟩ := hlive.foldInner h.sourced (hd.trans ht) hadm call.isEstablished
    call.cohort
  have hrewards : RewardLog (accepted ++ call.input.requests.map Prod.fst)
      (keysIn reward? ws ++ (L.fold call).2.rewards.map requestHash)
      (L.fold call).1.toRequestBook := by
    rw [ServiceLedger.fold, ServiceLedger.onChainBlockWithRewards, foldInner_normal]
    exact h.rewards.replay hrequests call.cohort
  obtain ⟨hseenNodup, hseenNew, hseenIff⟩ := fold_sightings L call
  have hsettle := h.settled call ht hpos
  have hstrike : (keysIn strike? ws ++
      keysIn strike? ((L.fold call).2.writes call.input.daa)).Nodup := by
    rw [FoldOutcome.strikeKeys_writes]
    refine (nodup_keysIn strike?_inj h.nodup).append ?_ fun x hx hx' => ?_
    · refine Nodup.map (fun a b hab => congrArg Prod.snd hab) ?_
      refine hsettle.missed_nodup.append hsettle.reset.nodup fun id hid hid' => ?_
      obtain ⟨r, hr, rfl⟩ := mem_map.mp hid'
      exact of_decide_eq_true (mem_filter.mp hr).2 hid
    · -- Strike rows of the blocks before carry older scores.
      obtain ⟨w, hw, hdaa⟩ := exists_of_mem_strikeKeys hx
      obtain ⟨id, -, rfl⟩ := mem_map.mp hx'
      exact absurd (h.scores w hw) (not_lt.mpr (hdaa ▸ ht))
  have hseen : (keysIn firstSeen? ws ++ (L.fold call).2.sightings).Nodup :=
    (nodup_keysIn firstSeen?_inj h.nodup).append hseenNodup fun id hid hid' =>
      (h.sighted id).mp (hseenNew id hid') hid
  rw [← FoldOutcome.burnKeys_writes _ call.input.daa, ← keysIn_append] at hburn hvault hsrc
  rw [← FoldOutcome.rewardKeys_writes _ call.input.daa, ← keysIn_append] at hrewards
  rw [← FoldOutcome.seenKeys_writes _ call.input.daa, ← keysIn_append] at hseen
  rw [← keysIn_append] at hstrike
  have hnodup := nodup_of_stores hburn hstrike hseen hrewards.nodup
  refine ⟨⟨?_, hnodup, ⟨call.input.daa, Nat.le_succ _, hburnable ▸ hvault⟩, hsrc, ?_, ?_, hrewards⟩,
    ⟨?_, ?_, ?_, ?_⟩⟩
  · intro w hw
    rcases mem_append.mp hw with hw | hw
    · exact lt_of_lt_of_le (h.scores w hw) (ht.trans (Nat.le_succ _))
    · obtain ⟨e, -, he⟩ := mem_flatMap.mp hw
      exact Nat.lt_succ_of_le (ServiceEvent.daa_of_mem_writes he).le
  · intro id
    rw [hseenIff, h.sighted, keysIn_append, FoldOutcome.seenKeys_writes, mem_append, not_or]
  · exact fun id e he => Nat.lt_succ_of_le (hsettle.upTo id e he)
  · exact fun w hw => (h.later w hw).le.trans ht
  · exact ServiceStores.Fresh.right ⟨hnodup, fun w _ => by cases w <;> rfl⟩
  · exact fun m hm _ => hsettle.counted m hm
  · exact fun r hr hr' => (hsettle.reset.record r hr hr').2.ne

end

end Accounted

end KeryxNode
