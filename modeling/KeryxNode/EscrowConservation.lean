import Mathlib.Algebra.Order.Group.Multiset
import Mathlib.Tactic.Abel
import KeryxNode.WarmupRefold

/-!
# Conservation of Escrow Claims

Claims enter the vault at the back of a deque. They leave it at the front once they are past the
burnable window, and at the back when a miss burns them. The purge splits a deque, and re-pushing
what the misses of a block took gives back the deque they were taken from; so what a fold leaves,
burns and lets expire is what the vault held and the block added. The purge runs before the
closings, so a burned claim is within its window at the miss.

## Main results

* `escrow_conservation`: over every run of blocks in the order of their scores the claims added are
  those of the vault, the expired and the burned ones, and every burn is final before the lock of
  its claim ends.
* `escrow_bounds_unordered`: folds out of order leave a deque out of order and burn a claim before
  its own score.
-/

namespace KeryxNode

open List ServiceLedger BondBook

variable {L : ServiceLedger} {calls : List FoldCall} {m : Hash}

/-- The claims of a miner. -/
def ofMiner (m : Hash) (l : List (Hash × EscrowClaim)) : List EscrowClaim :=
  (l.filter fun e => decide (e.1 = m)).map Prod.snd

/-- The claims a list of misses burned, with their miners. -/
def burnedClaims (misses : List ServiceMiss) : List (Hash × EscrowClaim) :=
  misses.flatMap fun miss => miss.burned.map fun c => (miss.miner, c)

theorem ofMiner_append (l l' : List (Hash × EscrowClaim)) :
    ofMiner m (l ++ l') = ofMiner m l ++ ofMiner m l' := by
  rw [ofMiner, filter_append, map_append, ofMiner, ofMiner]

theorem claimsOf_admitted (b : BondBook) (escrows : List (Hash × EscrowClaim)) :
    claimsOf (escrows.foldl (admitEscrow none) (b, [])).1.vault m
      = claimsOf b.vault m ++ ofMiner m escrows := by
  rw [claimsOf_admitEscrows, filter_eq_self.mpr fun c _ => by simp, ofMiner]

/-- Misses taken back re-push their burned claims, newest last. -/
theorem claimsOf_unburn (misses : List ServiceMiss) (vault : OrdMap Hash (List EscrowClaim)) :
    claimsOf (misses.reverse.foldl unburn vault) m
      = claimsOf vault m ++ (ofMiner m (burnedClaims misses)).reverse := by
  have hpush : misses.reverse.foldl unburn vault
      = (burnedClaims misses).reverse.foldl (fun v e => pushBack v e.1 e.2) vault := by
    rw [burnedClaims, reverse_flatMap, foldl_flatMap]
    simp only [Function.comp_apply, ← map_reverse, foldl_map]
    rfl
  rw [hpush, claimsOf_foldl_pushBack, filter_reverse, map_reverse]
  rfl

/-- **One fold**, miner by miner: the opened deque is what is left and what was burned; behind what
expired it is what was there and what was added. -/
theorem claimsOf_fold (call : FoldCall) (m : Hash) :
    let opened := claimsOf (L.toBondBook.openBlock L.burnable call.input none).1.1.vault m
    opened = claimsOf (L.fold call).1.vault m ++
        (ofMiner m (burnedClaims (L.fold call).2.misses)).reverse ∧
      ofMiner m (L.fold call).2.expired ++ opened
        = claimsOf L.vault m ++ ofMiner m call.input.escrows := by
  intro opened
  have hr := foldInner_normal L call.input call.cohort call.isEstablished
  simp only [fold, onChainBlockWithRewards, hr, opened]
  constructor
  · rw [← claimsOf_unburn, (unburn_settle _ _ _ _ (tidy_openBlock _ _ _ _)).2]
  · rw [← claimsOf_admitted, BondBook.openBlock, claimsOf_purgeExpired]
    refine (congrArg (· ++ _) ?_).trans takeWhile_append_dropWhile
    exact expired_of_miner _ m (OrdMap.sorted _)

/-! ### Runs -/

/-- A run of blocks: scores do not decrease, and a claim carries the score of its block. -/
structure EscrowRun (calls : List FoldCall) : Prop where
  monotone : (calls.map fun call => call.input.daa).Pairwise (· ≤ ·)
  claims : ∀ call ∈ calls, ∀ e ∈ call.input.escrows, e.2.daa = call.input.daa

/-- The claims of every miner that were there or came in are left, expired or burned. -/
theorem run_conserves (L : ServiceLedger) (calls : List FoldCall) (m : Hash) :
    (↑(claimsOf L.vault m) + ↑(ofMiner m (escrowsOf calls)) : Multiset EscrowClaim)
      = ↑(claimsOf (L.run calls).1.vault m)
        + ↑(ofMiner m ((L.run calls).2.flatMap FoldOutcome.expired))
        + ↑(ofMiner m ((L.run calls).2.flatMap fun o => burnedClaims o.misses)) := by
  induction calls generalizing L with
  | nil => simp [run, escrowsOf, ofMiner]
  | cons call calls ih =>
    obtain ⟨hburned, hexpired⟩ := claimsOf_fold (L := L) call m
    have hburned := congrArg (Multiset.ofList ·) hburned
    have hexpired := congrArg (Multiset.ofList ·) hexpired
    have hrest := ih (L.fold call).1
    simp only [← Multiset.coe_add, Multiset.coe_reverse] at hburned hexpired
    simp only [run, flatMap_cons, escrowsOf_cons, ofMiner_append, ← Multiset.coe_add]
    rw [← add_assoc, ← hexpired, hburned, add_comm (Multiset.ofList (claimsOf _ m)), ← add_assoc,
      add_assoc _ _ (Multiset.ofList (ofMiner m (escrowsOf calls))), hrest]
    abel

/-- The deques of a vault are in score order, up to a score. -/
def SortedUpTo (daa : ℕ) (vault : OrdMap Hash (List EscrowClaim)) : Prop :=
  ∀ m, (claimsOf vault m).Pairwise (fun a b => a.daa ≤ b.daa) ∧ ∀ c ∈ claimsOf vault m, c.daa ≤ daa

/-- **The opened vault** is in score order, and all its claims are within their windows. -/
theorem SortedUpTo.openBlock {daa : ℕ} {i : FoldInput} (h : SortedUpTo daa L.vault)
    (hdaa : daa ≤ i.daa) (hclaims : ∀ e ∈ i.escrows, e.2.daa = i.daa) (m : Hash) :
    let opened := claimsOf (L.toBondBook.openBlock L.burnable i none).1.1.vault m
    opened.Pairwise (fun a b => a.daa ≤ b.daa) ∧
      ∀ c ∈ opened, c.daa ≤ i.daa ∧ i.daa < c.daa + L.burnable := by
  intro opened
  obtain ⟨hsorted, hle⟩ := h m
  have hnew : ∀ c ∈ ofMiner m i.escrows, c.daa = i.daa := by
    intro c hc
    obtain ⟨e, he, rfl⟩ := mem_map.mp hc
    exact hclaims e (mem_filter.mp he).1
  have hall : (claimsOf L.vault m ++ ofMiner m i.escrows).Pairwise fun a b => a.daa ≤ b.daa :=
    pairwise_append.mpr ⟨hsorted, pairwise_of_forall_mem_list fun a ha b hb =>
      (hnew a ha).trans_le (hnew b hb).ge, fun a ha b hb =>
      ((hle a ha).trans hdaa).trans_eq (hnew b hb).symm⟩
  have hopened : opened = (claimsOf L.vault m ++ ofMiner m i.escrows).filter
      fun c => !stale L.burnable i.daa c := by
    simp only [opened, BondBook.openBlock, claimsOf_purgeExpired, claimsOf_admitted]
    refine dropWhile_eq_filter (hall.imp fun {a b} hab hb => ?_)
    rw [stale, decide_eq_true_eq] at hb ⊢
    omega
  refine ⟨hopened ▸ hall.filter _, fun c hc => ?_⟩
  rw [hopened] at hc
  obtain ⟨hmem, hfresh⟩ := mem_filter.mp hc
  rw [Bool.not_eq_true', stale, decide_eq_false_iff_not, not_le] at hfresh
  refine ⟨?_, hfresh⟩
  rcases mem_append.mp hmem with hmem | hmem
  · exact (hle c hmem).trans hdaa
  · exact (hnew c hmem).le

/-- **A run** keeps the deques in score order and burns claims within their windows. -/
theorem SortedUpTo.run {daa : ℕ} (h : SortedUpTo daa L.vault)
    (hmono : (calls.map fun call => call.input.daa).Pairwise (· ≤ ·))
    (hclaims : ∀ call ∈ calls, ∀ e ∈ call.input.escrows, e.2.daa = call.input.daa)
    (hle : ∀ call ∈ calls, daa ≤ call.input.daa) :
    (∀ m, (claimsOf (L.run calls).1.vault m).Pairwise fun a b => a.daa ≤ b.daa) ∧
      ∀ e ∈ calls.zip (L.run calls).2, ∀ miss ∈ e.2.misses, ∀ c ∈ miss.burned,
        c.daa ≤ e.1.input.daa ∧ e.1.input.daa < c.daa + L.burnable := by
  induction calls generalizing L daa with
  | nil => exact ⟨fun m => (h m).1, fun e he => (by cases he)⟩
  | cons call calls ih =>
    rw [map_cons, pairwise_cons] at hmono
    have hopened := h.openBlock (hle call mem_cons_self) (hclaims call mem_cons_self)
    have hsplit := fun m => (claimsOf_fold (L := L) call m).1
    have hfold : SortedUpTo call.input.daa (L.fold call).1.vault := fun m => by
      have hsub := (hsplit m).symm ▸ sublist_append_left _ _
      exact ⟨(hopened m).1.sublist hsub, fun c hc => ((hopened m).2 c (hsub.subset hc)).1⟩
    obtain ⟨hsorted, hbounds⟩ := ih hfold hmono.2 (fun x hx => hclaims x (mem_cons_of_mem _ hx))
      fun x hx => hmono.1 _ (mem_map_of_mem hx)
    rw [config_fold] at hbounds
    refine ⟨hsorted, fun e he miss hmiss c hc => ?_⟩
    rcases mem_cons.mp he with rfl | he
    · have hmem : (miss.miner, c) ∈ burnedClaims (L.fold call).2.misses :=
        mem_flatMap.mpr ⟨miss, hmiss, mem_map_of_mem hc⟩
      refine (hopened miss.miner).2 c ?_
      rw [hsplit]
      exact mem_append_right _ (mem_reverse.mpr (mem_map_of_mem (mem_filter.mpr ⟨hmem, by simp⟩)))
    · exact hbounds e he miss hmiss c hc

/-- **Escrow claims are conserved and burns are enforceable.** Over every run from an empty vault
the claims added for a miner are, each once, in its deque, expired or burned; deques are in score
order; and a claim is burned within its window, so the burn is final before its lock ends. -/
theorem escrow_conservation (L : ServiceLedger) (hempty : L.vault = OrdMap.empty)
    (calls : List FoldCall) (hrun : EscrowRun calls) :
    let r := L.run calls
    (∀ m, (↑(ofMiner m (escrowsOf calls)) : Multiset EscrowClaim) = ↑(claimsOf r.1.vault m)
        + ↑(ofMiner m (r.2.flatMap FoldOutcome.expired))
        + ↑(ofMiner m (r.2.flatMap fun o => burnedClaims o.misses))) ∧
      (∀ m, (claimsOf r.1.vault m).Pairwise fun a b => a.daa ≤ b.daa) ∧
      ∀ e ∈ calls.zip r.2, ∀ miss ∈ e.2.misses, ∀ c ∈ miss.burned,
        c.daa ≤ e.1.input.daa ∧ e.1.input.daa < c.daa + L.burnable ∧
        (L.burnable = serviceBurnableWindowDaa →
          e.1.input.daa + 432000 < c.daa + serviceBondCsvWindowBlocks) := by
  have hstart : SortedUpTo 0 L.vault := fun m => by simp [hempty, claimsOf]
  obtain ⟨hsorted, hbounds⟩ := hstart.run hrun.monotone hrun.claims fun _ _ => Nat.zero_le _
  refine ⟨fun m => ?_, hsorted, fun e he miss hmiss c hc => ?_⟩
  · have hcount := run_conserves L calls m
    rw [hempty] at hcount
    exact (zero_add _).symm.trans hcount
  · obtain ⟨hlow, hhigh⟩ := hbounds e he miss hmiss c hc
    refine ⟨hlow, hhigh, fun hwindow => ?_⟩
    rw [hwindow, serviceBurnableWindowDaa] at hhigh
    rw [serviceBondCsvWindowBlocks]
    omega

/-- The claim of the silent identity is burned at score 402. -/
theorem escrow_conservation_silentRun :
    let r := ({} : ServiceLedger).run silentRun
    (r.2.flatMap fun o => burnedClaims o.misses) = [(1, ⟨⟨5, 0⟩, 7, 10⟩)] ∧
      (∀ m, (↑(ofMiner m (escrowsOf silentRun)) : Multiset EscrowClaim) = ↑(claimsOf r.1.vault m)
        + ↑(ofMiner m (r.2.flatMap FoldOutcome.expired))
        + ↑(ofMiner m (r.2.flatMap fun o => burnedClaims o.misses))) ∧
      ∀ e ∈ silentRun.zip r.2, ∀ miss ∈ e.2.misses, ∀ c ∈ miss.burned,
        e.1.input.daa + 432000 < c.daa + serviceBondCsvWindowBlocks := by
  obtain ⟨hcount, -, hbounds⟩ := escrow_conservation {} rfl silentRun ⟨by decide, by decide⟩
  exact ⟨by decide +kernel, hcount, fun e he miss hmiss c hc =>
    (hbounds e he miss hmiss c hc).2.2 rfl⟩

/-- Claims of identities 1 and 2 at score 500, then a lower score with a claim of identity 2 and a
request that identity 1 does not answer. -/
def unorderedRun : List FoldCall :=
  [cohortBlock { daa := 500, escrows := [(1, ⟨⟨5, 0⟩, 7, 500⟩), (2, ⟨⟨6, 0⟩, 7, 500⟩)] },
    cohortBlock { daa := 100, requests := [(9, 0, 0)], escrows := [(2, ⟨⟨7, 0⟩, 7, 100⟩)] },
    cohortBlock { daa := 101 }, cohortBlock { daa := 402 }]

/-- **Folds out of order**: every claim carries the score of its block and an outpoint of its own,
yet the deque of identity 2 is not in score order, and the miss at score 402 burns a claim of score
500. -/
theorem escrow_bounds_unordered :
    let r := ({} : ServiceLedger).run unorderedRun
    (∀ call ∈ unorderedRun, ∀ e ∈ call.input.escrows, e.2.daa = call.input.daa) ∧
      ((escrowsOf unorderedRun).map fun e => e.2.outpoint).Nodup ∧
      (claimsOf r.1.vault 2).map EscrowClaim.daa = [500, 100] ∧
      ∃ e ∈ unorderedRun.zip r.2, ∃ miss ∈ e.2.misses, ∃ c ∈ miss.burned,
        e.1.input.daa = 402 ∧ c.daa = 500 := by
  decide +kernel

end KeryxNode
