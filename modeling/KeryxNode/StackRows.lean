import Mathlib.Data.List.Flatten
import KeryxNode.ReorgUndo
import KeryxNode.RunRows

/-!
# The Rows of a Stack

A node's chain above the block its ledger started at is a stack of fold records. This module
reads the events and rows of the stack off it, and shows that the rows of a stack of normal
records on a well-formed chain are fresh, block after block.
-/

namespace KeryxNode

open BondBook FoldRecord List

/-! ### Events and rows -/

namespace FoldRecord

variable (N : Network)

/-- The events of a stack folded on `L` above chain index `i`, in queue order. -/
def events : ℕ → ServiceLedger → List FoldRecord → List QueuedEvent
  | _, _, [] => []
  | i, L, r :: recs =>
    (r.apply N L).outcome.queued (i + 1) (N.daaOf r.hash) ++
      events (i + 1) (r.apply N L).ledger recs

/-- The rows of those events. -/
def writes : ServiceLedger → List FoldRecord → List StoreWrite
  | _, [] => []
  | L, r :: recs =>
    (r.apply N L).outcome.writes (N.daaOf r.hash) ++ writes (r.apply N L).ledger recs

theorem events_append (i : ℕ) (L : ServiceLedger) (recs recs' : List FoldRecord) :
    events N i L (recs ++ recs')
      = events N i L recs ++ events N (i + recs.length) (replay N L recs) recs' := by
  induction recs generalizing i L with
  | nil => rfl
  | cons r recs ih =>
    rw [cons_append, events, ih, events, append_assoc, length_cons,
      Nat.add_right_comm]
    rfl

theorem writes_append (L : ServiceLedger) (recs recs' : List FoldRecord) :
    writes N L (recs ++ recs') = writes N L recs ++ writes N (replay N L recs) recs' := by
  induction recs generalizing L with
  | nil => rfl
  | cons r recs ih =>
    rw [cons_append, writes, ih, writes, append_assoc]
    rfl

/-- A row of a stack has the score of one of its blocks. -/
theorem exists_of_mem_writes {L : ServiceLedger} {recs : List FoldRecord} {w : StoreWrite}
    (h : w ∈ writes N L recs) : ∃ r ∈ recs, w.daa = N.daaOf r.hash := by
  induction recs generalizing L with
  | nil => cases h
  | cons r recs ih =>
    rcases mem_append.mp h with h | h
    · obtain ⟨e, -, he⟩ := mem_flatMap.mp h
      exact ⟨r, mem_cons_self, ServiceEvent.daa_of_mem_writes he⟩
    · obtain ⟨r', hr', hdaa⟩ := ih h
      exact ⟨r', mem_cons_of_mem _ hr', hdaa⟩

/-- The call a record folds. -/
def call (r : FoldRecord) : FoldCall :=
  N.foldCall r.view r.hash

variable {N}

/-- A block before `pom_v3_activation` is not folded. -/
theorem apply_of_inactive {r : FoldRecord} (h : N.daaOf r.hash < N.pomV3Activation)
    (L : ServiceLedger) : r.apply N L = { ledger := L } := by
  rw [apply, Network.foldServiceChainBlock, if_pos h]

/-- A normal record folds its call. -/
theorem apply_of_normal {r : FoldRecord} (h : N.pomV3Activation ≤ N.daaOf r.hash)
    (hr : r.warmup = false) (L : ServiceLedger) :
    r.apply N L =
      { ledger := ((L.configure N.ledgerConfig).fold (r.call N)).1
        outcome := ((L.configure N.ledgerConfig).fold (r.call N)).2
        added := (r.call N).input.escrows } := by
  rw [apply, Network.foldServiceChainBlock, if_neg (not_lt.mpr h), hr]
  rfl

/-- The claims a record admits. -/
def escrows (N : Network) (r : FoldRecord) : List (Hash × EscrowClaim) :=
  if N.daaOf r.hash < N.pomV3Activation then [] else (r.call N).input.escrows

/-- The requests a record accepts. -/
def requests (N : Network) (r : FoldRecord) : List Hash :=
  if N.daaOf r.hash < N.pomV3Activation then [] else (r.call N).input.requests.map Prod.fst

end FoldRecord

/-! ### Well-formed chains -/

/-- The requests a chain block accepts. -/
def Network.requestHashes (N : Network) (h : Hash) : List Hash :=
  (N.serviceEventsOfChainBlock h (decide (N.rewardRoutingActivation ≤ N.daaOf h))).1.map Prod.fst

/-- A well-formed chain: scores increase, no two escrow claims share an outpoint, no request is
accepted twice. -/
@[mk_iff]
structure ChainFacts (N : Network) (hashes : List Hash) : Prop where
  increasing : hashes.Pairwise fun a b => N.daaOf a < N.daaOf b
  outpoints : ((hashes.flatMap N.serviceEscrowsOfChainBlock).map fun e => e.2.outpoint).Nodup
  requests : (hashes.flatMap N.requestHashes).Nodup

instance (N : Network) (hashes : List Hash) : Decidable (ChainFacts N hashes) :=
  decidable_of_iff' _ (chainFacts_iff N hashes)

/-- A stack of normal records whose claims and requests are distinct. -/
structure StackFacts (N : Network) (recs : List FoldRecord) : Prop where
  normal : ∀ r ∈ recs, r.warmup = false
  positive : ∀ r ∈ recs, 0 < N.daaOf r.hash
  increasing : recs.Pairwise fun a b => N.daaOf a.hash < N.daaOf b.hash
  outpoints : ((recs.flatMap (escrows N)).map fun e => e.2.outpoint).Nodup
  requests : (recs.flatMap (requests N)).Nodup

/-- The claims of a chain block carry its score. -/
theorem Network.daa_of_mem_serviceEscrows {N : Network} {h : Hash} {e : Hash × EscrowClaim}
    (he : e ∈ N.serviceEscrowsOfChainBlock h) : e.2.daa = N.daaOf h := by
  refine (foldlRecOn _ _ (motive := fun s : ℕ × List (Hash × EscrowClaim) =>
    ∀ e ∈ s.2, e.2.daa = N.daaOf h) (fun _ he => (by cases he)) ?_) e he
  intro s hs b _
  unfold matchEscrow
  split
  · exact hs
  · split
    · exact hs
    · split
      · exact hs
      · exact forall_mem_append.mpr ⟨hs, forall_mem_singleton.mpr rfl⟩

/-- The escrows a record admits are claims of its block, at its score. -/
theorem FoldRecord.mem_escrows {N : Network} {r : FoldRecord} {e : Hash × EscrowClaim}
    (he : e ∈ r.escrows N) : e.2.daa = N.daaOf r.hash := by
  rw [escrows] at he
  split at he
  · cases he
  · exact Network.daa_of_mem_serviceEscrows (mem_filter.mp he).1

namespace StackFacts

variable {N : Network} {recs recs' : List FoldRecord} {r : FoldRecord}

/-- A part of such a stack is one. -/
theorem sublist (h : StackFacts N recs') (hsub : recs.Sublist recs') : StackFacts N recs where
  normal r hr := h.normal r (hsub.subset hr)
  positive r hr := h.positive r (hsub.subset hr)
  increasing := h.increasing.sublist hsub
  outpoints := h.outpoints.sublist ((hsub.flatMap _).map _)
  requests := h.requests.sublist (hsub.flatMap _)

/-- The claims of the stack enter in score order. -/
theorem admitted (h : StackFacts N recs) : Admitted (recs.flatMap (escrows N)) := by
  refine ⟨?_, h.outpoints⟩
  rw [pairwise_flatMap]
  refine ⟨fun r _ => pairwise_of_forall_mem_list fun a ha b hb => ?_, ?_⟩
  · rw [mem_escrows ha, mem_escrows hb]
  · refine h.increasing.imp fun {x y} hlt a ha b hb => ?_
    rw [mem_escrows ha, mem_escrows hb]
    exact hlt.le

/-- The records above the first on a well-formed chain, folded normally. -/
theorem of_chain {hashes : List Hash} {k : ℕ} (h : ChainFacts N hashes)
    (hrecs : hashes.drop (k + 1) = recs.map hash) (hnormal : ∀ r ∈ recs, r.warmup = false) :
    StackFacts N recs := by
  have hall : (recs.map hash).Sublist hashes := hrecs ▸ drop_sublist _ _
  have hincr := pairwise_map.mp (h.increasing.sublist hall)
  refine ⟨hnormal, fun r hr => ?_, hincr, ?_, ?_⟩
  · have hmem : r.hash ∈ hashes.drop (k + 1) := hrecs ▸ mem_map_of_mem hr
    cases hashes with
    | nil => cases hmem
    | cons first rest =>
      have := (pairwise_cons.mp h.increasing).1 r.hash (mem_of_mem_drop hmem)
      omega
  · have hown : (recs.flatMap (escrows N)).Sublist
        (recs.flatMap fun r => N.serviceEscrowsOfChainBlock r.hash) := by
      refine Sublist.flatMap_right recs fun r _ => ?_
      rw [escrows]
      split
      · exact nil_sublist _
      · exact filter_sublist
    have hchain := hall.flatMap N.serviceEscrowsOfChainBlock
    rw [flatMap_map] at hchain
    exact h.outpoints.sublist ((hown.trans hchain).map _)
  · have hown : (recs.flatMap (FoldRecord.requests N)).Sublist
        (recs.flatMap fun r => N.requestHashes r.hash) := by
      refine Sublist.flatMap_right recs fun r _ => ?_
      rw [FoldRecord.requests]
      split
      · exact nil_sublist _
      · exact Sublist.refl _
    have hchain := hall.flatMap N.requestHashes
    rw [flatMap_map] at hchain
    exact h.requests.sublist (hown.trans hchain)

/-- One more record: it is accounted for, and its rows are fresh. -/
theorem step (h : StackFacts N (recs ++ [r])) {t : ℕ} (ht : t ≤ N.daaOf r.hash)
    (hacc : Accounted N.serviceBurnableWindowDaa t (recs.flatMap (FoldRecord.requests N))
      (recs.flatMap (escrows N)) (writes N {} recs)
      (replay N {} recs)) :
    (∃ t' ≤ N.daaOf r.hash + 1, Accounted N.serviceBurnableWindowDaa t'
        ((recs ++ [r]).flatMap (FoldRecord.requests N))
        ((recs ++ [r]).flatMap (escrows N)) (writes N {} (recs ++ [r]))
        (replay N {} (recs ++ [r]))) ∧
      CleanOutcome (({} : ServiceStores).writeAll (writes N {} recs)) (N.daaOf r.hash)
        (r.apply N (replay N {} recs)).outcome := by
  have hmem : r ∈ recs ++ [r] := mem_append_right _ (mem_singleton_self r)
  have hadm := h.admitted
  have hrequests := h.requests
  simp only [flatMap_append, flatMap_cons, flatMap_nil, append_nil,
    writes_append, replay_append] at hadm hrequests ⊢
  rw [writes, writes, append_nil,
    show replay N (replay N {} recs) [r]
      = (r.apply N (replay N {} recs)).ledger from rfl]
  by_cases hactive : N.daaOf r.hash < N.pomV3Activation
  · rw [FoldRecord.apply_of_inactive hactive, FoldRecord.requests, FoldRecord.escrows,
      if_pos hactive, if_pos hactive, append_nil]
    refine ⟨⟨t, ht.trans (Nat.le_succ _), ?_⟩, ?_⟩
    · simpa [FoldOutcome.writes, FoldOutcome.events] using hacc
    · exact ⟨fun w hw => (hacc.later w hw).le.trans ht, ⟨nodup_nil, fun _ hw => (by cases hw)⟩,
        fun _ hm => (by cases hm), fun _ hr => (by cases hr)⟩
  · rw [escrows, if_neg hactive] at hadm ⊢
    rw [FoldRecord.requests, if_neg hactive] at hrequests ⊢
    rw [apply_of_normal (not_lt.mp hactive) (h.normal r hmem)]
    obtain ⟨hnext, hclean⟩ := @Accounted.fold _ _ _ _ _ _ (r.call N)
      (hacc.configure N.ledgerConfig) rfl ht (h.positive r hmem) hadm hrequests
    exact ⟨⟨_, le_refl _, hnext⟩, hclean⟩

/-- **The ledger of a stack accounts for its rows.** -/
theorem accounted (h : StackFacts N recs) :
    ∃ t, (∀ d, (∀ r ∈ recs, N.daaOf r.hash < d) → t ≤ d) ∧
      Accounted N.serviceBurnableWindowDaa t (recs.flatMap (FoldRecord.requests N))
        (recs.flatMap (escrows N)) (writes N {} recs)
        (replay N {} recs) := by
  induction recs using reverseRecOn with
  | nil => exact ⟨0, fun _ _ => Nat.zero_le _, Accounted.empty _ _⟩
  | append_singleton recs r ih =>
    obtain ⟨t, hbound, hacc⟩ := ih (h.sublist (sublist_append_left _ _))
    have ht : t ≤ N.daaOf r.hash := hbound _ fun x hx =>
      (pairwise_append.mp h.increasing).2.2 x hx r (mem_singleton_self r)
    obtain ⟨⟨t', ht', hacc'⟩, -⟩ := h.step ht hacc
    exact ⟨t', fun d hd => ht'.trans (hd r (by simp)), hacc'⟩

/-- **The rows of every record are fresh** over those of the records below it. -/
theorem clean (h : StackFacts N (recs ++ r :: recs')) :
    CleanOutcome (({} : ServiceStores).writeAll (writes N {} recs)) (N.daaOf r.hash)
      (r.apply N (replay N {} recs)).outcome := by
  have hhead : StackFacts N (recs ++ [r]) := by
    refine h.sublist (Sublist.append (Sublist.refl _) ?_)
    exact singleton_sublist.mpr mem_cons_self
  obtain ⟨t, hbound, hacc⟩ := (hhead.sublist (sublist_append_left _ _)).accounted
  have ht : t ≤ N.daaOf r.hash := hbound _ fun x hx =>
    (pairwise_append.mp h.increasing).2.2 x hx r mem_cons_self
  exact (hhead.step ht hacc).2

end StackFacts

end KeryxNode
