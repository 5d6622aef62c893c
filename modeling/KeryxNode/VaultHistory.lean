import KeryxNode.OrdMapScan
import KeryxNode.VaultUndo

/-!
# What the Vault Holds

The vault is a function of history: after any run of folds the claims of a miner are the
claims ever admitted for it, minus the burned ones, minus those past the burnable window —
`liveClaims`. Claims enter in score order, so the purge from the front of a deque is a filter
by score; outpoints are distinct, so taking claims off the back is a filter by outpoint.
-/

namespace KeryxNode

open List EscrowClaim

namespace BondBook

variable {l : List (Hash × EscrowClaim)} {b : BondBook}

/-- The claims of `m` among admitted ones that are neither past the burnable window at `daa`
nor burned. -/
def liveClaims (burnable daa : ℕ) (burned : List TransactionOutpoint)
    (added : List (Hash × EscrowClaim)) (m : Hash) : List EscrowClaim :=
  ((added.filter fun e => decide (e.1 = m)).map Prod.snd).filter fun c =>
    !stale burnable daa c && decide (c.outpoint ∉ burned)

/-- Claims as a run admits them: in score order, each outpoint once. -/
structure Admitted (added : List (Hash × EscrowClaim)) : Prop where
  sorted : added.Pairwise fun a b => a.2.daa ≤ b.2.daa
  nodup : (added.map fun e => e.2.outpoint).Nodup

/-- The vault holds exactly the live claims. -/
structure HoldsLive (burnable daa : ℕ) (burned : List TransactionOutpoint)
    (added : List (Hash × EscrowClaim)) (vault : OrdMap Hash (List EscrowClaim)) : Prop where
  tidy : Tidy vault
  claims : ∀ m, claimsOf vault m = liveClaims burnable daa burned added m

/-- Every burned outpoint is one of an admitted claim. -/
def Sourced (added : List (Hash × EscrowClaim)) (burned : List TransactionOutpoint) : Prop :=
  ∀ o ∈ burned, ∃ e ∈ added, e.2.outpoint = o

/-- The outpoints a list of misses burns. -/
def burnedOutpoints (misses : List ServiceMiss) : List TransactionOutpoint :=
  misses.flatMap fun miss => miss.burned.map outpoint

@[simp] theorem burnedOutpoints_nil : burnedOutpoints [] = [] := rfl

@[simp] theorem burnedOutpoints_append (l l' : List ServiceMiss) :
    burnedOutpoints (l ++ l') = burnedOutpoints l ++ burnedOutpoints l' :=
  flatMap_append

variable {burnable daa : ℕ} {burned : List TransactionOutpoint}
  {added : List (Hash × EscrowClaim)} {vault : OrdMap Hash (List EscrowClaim)} {m : Hash}

/-! ### Live claims -/

/-- The empty vault holds the live claims of nothing. -/
theorem HoldsLive.empty (burnable daa : ℕ) (burned : List TransactionOutpoint) :
    HoldsLive burnable daa burned [] .empty :=
  ⟨fun _ h => (by cases h), fun _ => rfl⟩

theorem liveClaims_append (l l' : List (Hash × EscrowClaim)) :
    liveClaims burnable daa burned (l ++ l') m
      = liveClaims burnable daa burned l m ++ liveClaims burnable daa burned l' m := by
  simp only [liveClaims, filter_append, map_append]

/-- Claims past the window do not count. -/
theorem liveClaims_of_stale (h : ∀ e ∈ l, stale burnable daa e.2 = true) :
    liveClaims burnable daa burned l m = [] := by
  rw [liveClaims, filter_eq_nil_iff]
  intro c hc
  obtain ⟨e, he, rfl⟩ := mem_map.mp hc
  rw [h e (mem_filter.mp he).1]
  simp

/-- A live claim is an admitted one of its miner. -/
theorem mem_liveClaims {c : EscrowClaim} (h : c ∈ liveClaims burnable daa burned added m) :
    (m, c) ∈ added ∧ c.outpoint ∉ burned := by
  obtain ⟨hmem, hlive⟩ := mem_filter.mp h
  obtain ⟨e, he, rfl⟩ := mem_map.mp hmem
  obtain ⟨he, hm⟩ := mem_filter.mp he
  rw [Bool.and_eq_true, decide_eq_true_eq] at hlive
  exact ⟨of_decide_eq_true hm ▸ he, hlive.2⟩

/-- Burning more outpoints filters the live claims. -/
theorem liveClaims_burn (more : List TransactionOutpoint) :
    liveClaims burnable daa (burned ++ more) added m
      = (liveClaims burnable daa burned added m).filter fun c => decide (c.outpoint ∉ more) := by
  rw [liveClaims, liveClaims, filter_filter]
  refine filter_congr fun c _ => ?_
  rw [Bool.eq_iff_iff]
  simp only [mem_append, Bool.and_eq_true, decide_eq_true_eq]
  tauto

/-- The live claims of a miner have distinct outpoints. -/
theorem Admitted.nodup_liveClaims (h : Admitted added) :
    ((liveClaims burnable daa burned added m).map outpoint).Nodup := by
  refine Nodup.sublist (Sublist.map _ filter_sublist) ?_
  rw [map_map]
  exact h.nodup.sublist (Sublist.map _ filter_sublist)

theorem Admitted.left {l' : List (Hash × EscrowClaim)} (h : Admitted (l ++ l')) : Admitted l :=
  ⟨h.sorted.sublist (sublist_append_left l l'), by
    have := h.nodup
    rw [map_append] at this
    exact this.of_append_left⟩

theorem Admitted.right {l' : List (Hash × EscrowClaim)} (h : Admitted (l ++ l')) :
    Admitted l' :=
  ⟨h.sorted.sublist (sublist_append_right l l'), by
    have := h.nodup
    rw [map_append] at this
    exact this.of_append_right⟩

/-- A claim admitted later has another outpoint than any burned so far. -/
theorem Sourced.fresh (h : Sourced added burned) (hadm : Admitted (added ++ l)) :
    ∀ e ∈ l, e.2.outpoint ∉ burned := by
  intro e he hburned
  obtain ⟨e', he', heq⟩ := h _ hburned
  have hnodup := hadm.nodup
  rw [map_append, nodup_append'] at hnodup
  exact hnodup.2.2 (mem_map_of_mem he') (heq ▸ mem_map_of_mem he)

/-- A normal fold drops no claim on arrival, and none of them is burned. -/
theorem Sourced.kept (h : Sourced added burned) (hadm : Admitted (added ++ l)) : ∀ e ∈ l,
      (none : Option (TransactionOutpoint → Bool)).any (fun isBurned => isBurned e.2.outpoint)
        = decide (e.2.outpoint ∈ burned) := fun e he => by
  exact (decide_eq_false (h.fresh hadm e he)).symm

theorem Sourced.nil : Sourced added [] := fun _ ho => (by cases ho)

theorem Sourced.mono (h : Sourced added burned) :
    Sourced (added ++ l) burned := fun o ho =>
  let ⟨e, he, heq⟩ := h o ho
  ⟨e, mem_append_left _ he, heq⟩

/-! ### Opening a block -/

/-- The claims of a miner after a block's claims are admitted, burned ones dropped. -/
theorem claimsOf_admitEscrows (warmupBurned : Option (TransactionOutpoint → Bool))
    (escrows : List (Hash × EscrowClaim)) (s : BondBook × List Hash) (m : Hash) :
    claimsOf (escrows.foldl (admitEscrow warmupBurned) s).1.vault m
      = claimsOf s.1.vault m ++ ((escrows.filter fun e => decide (e.1 = m)).map Prod.snd).filter
          fun c => !warmupBurned.any fun isBurned => isBurned c.outpoint := by
  rw [vault_admitEscrows, claimsOf_foldl_pushBack, filter_map, filter_comm]
  rfl

/-- **Opening a block** keeps the vault at the live claims. The block drops exactly its burned
claims on arrival. -/
theorem HoldsLive.openBlock (h : HoldsLive burnable daa burned added b.vault) {i : FoldInput}
    (hdaa : daa ≤ i.daa) (hadm : Admitted (added ++ i.escrows))
    {warmupBurned : Option (TransactionOutpoint → Bool)}
    (hburned : ∀ e ∈ i.escrows, warmupBurned.any (fun isBurned => isBurned e.2.outpoint)
      = decide (e.2.outpoint ∈ burned)) :
    HoldsLive burnable i.daa burned (added ++ i.escrows)
      (b.openBlock burnable i warmupBurned).1.1.vault := by
  refine ⟨tidy_openBlock _ _ _ _, fun m => ?_⟩
  have hold : claimsOf b.vault m = liveClaims burnable daa burned added m := h.claims m
  have hnew : ((i.escrows.filter fun e => decide (e.1 = m)).map Prod.snd).filter
        (fun c => !warmupBurned.any fun isBurned => isBurned c.outpoint)
      = ((i.escrows.filter fun e => decide (e.1 = m)).map Prod.snd).filter
          fun c => decide (c.outpoint ∉ burned) := by
    refine filter_congr fun c hc => ?_
    obtain ⟨e, he, rfl⟩ := mem_map.mp hc
    rw [hburned e (mem_filter.mp he).1]
    simp
  simp only [BondBook.openBlock]
  rw [claimsOf_purgeExpired, claimsOf_admitEscrows, hold, hnew, dropWhile_eq_filter]
  · -- Filtering by the later score subsumes filtering by the earlier one.
    rw [filter_append, liveClaims_append]
    congr 1
    · rw [liveClaims, filter_filter]
      refine filter_congr fun c _ => ?_
      rw [Bool.eq_iff_iff]
      simp only [stale, Bool.and_eq_true, Bool.not_eq_true', decide_eq_false_iff_not]
      constructor
      · rintro ⟨hs, -, hb⟩
        exact ⟨hs, hb⟩
      · rintro ⟨hs, hb⟩
        exact ⟨hs, by omega, hb⟩
    · rw [liveClaims, filter_filter]
  · -- The deque is in score order.
    have hall : (((added ++ i.escrows).filter fun e => decide (e.1 = m)).map Prod.snd).Pairwise
        fun a b => a.daa ≤ b.daa := by
      rw [pairwise_map]
      exact hadm.sorted.filter _
    rw [filter_append, map_append] at hall
    refine Pairwise.imp (fun {a b} hab hb => ?_)
      (hall.sublist (Sublist.append filter_sublist filter_sublist))
    rw [stale, decide_eq_true_eq] at hb ⊢
    omega

/-! ### Burning -/

/-- On a list with distinct keys, taking a front is filtering out the keys of the rest. -/
theorem take_eq_filter {α β : Type} [DecidableEq β] {f : α → β} {l : List α}
    (h : (l.map f).Nodup) (n : ℕ) :
    l.take n = l.filter fun a => decide (f a ∉ (l.drop n).map f) := by
  have hsplit : ((l.take n).map f ++ (l.drop n).map f).Nodup := by
    rwa [← map_append, take_append_drop]
  obtain ⟨-, -, hdisjoint⟩ := nodup_append'.mp hsplit
  conv_rhs => rw [← take_append_drop n l]
  rw [filter_append]
  have hfront : (l.take n).filter (fun a => decide (f a ∉ ((l.take n ++ l.drop n).drop n).map f))
      = l.take n := by
    refine filter_eq_self.mpr fun a ha => ?_
    rw [take_append_drop, decide_eq_true_eq]
    exact hdisjoint (mem_map_of_mem ha)
  have hback : (l.drop n).filter (fun a => decide (f a ∉ ((l.take n ++ l.drop n).drop n).map f))
      = [] := by
    refine filter_eq_nil_iff.mpr fun a ha => ?_
    rw [take_append_drop, decide_eq_true_eq, not_not]
    exact mem_map_of_mem ha
  rw [hfront, hback, append_nil]

/-- Burning keeps the vault at the live claims, with the claims taken counted as burned. -/
theorem HoldsLive.burn (h : HoldsLive burnable daa burned added b.vault) (hadm : Admitted added)
    (miner : Hash) (penalty : ServicePenalty) :
    HoldsLive burnable daa (burned ++ (b.burn miner penalty).2.map outpoint) added
      (b.burn miner penalty).1.vault := by
  refine ⟨tidy_burn h.tidy miner penalty, fun m => ?_⟩
  rw [burn_eq b miner penalty h.tidy, liveClaims_burn, claimsOf_setClaims, h.claims miner,
    h.claims m]
  simp only [map_reverse, mem_reverse]
  split
  · next hm =>
    subst hm
    exact take_eq_filter hadm.nodup_liveClaims _
  · -- The claims taken are of another miner, hence other outpoints.
    next hm =>
      refine (filter_eq_self.mpr fun c hc => ?_).symm
      rw [decide_eq_true_eq]
      intro htaken
      obtain ⟨c', hc', heq⟩ := mem_map.mp htaken
      have hmem' := (mem_liveClaims (mem_of_mem_drop hc')).1
      have := inj_on_of_nodup_map hadm.nodup (mem_liveClaims hc).1 hmem' heq.symm
      exact hm (congrArg Prod.fst this)

/-- The claims a burn takes are admitted ones. -/
theorem HoldsLive.sourced_burn (h : HoldsLive burnable daa burned added b.vault) (miner : Hash)
    (penalty : ServicePenalty) :
    Sourced added ((b.burn miner penalty).2.map outpoint) := by
  intro o ho
  obtain ⟨c, hc, rfl⟩ := mem_map.mp ho
  rw [burn_eq b miner penalty h.tidy] at hc
  have hmem := mem_of_mem_drop (mem_reverse.mp hc)
  rw [h.claims] at hmem
  exact ⟨_, (mem_liveClaims hmem).1, rfl⟩

/-- A strike keeps the vault at the live claims. -/
theorem HoldsLive.strike {s : BondBook × List ServiceMiss}
    (h : HoldsLive burnable daa (burned ++ burnedOutpoints s.2) added s.1.vault)
    (hsrc : Sourced added (burnedOutpoints s.2))
    (hadm : Admitted added) (score : ℕ) (v2 : Bool) (est : Hash → Bool) (rh miner : Hash) :
    HoldsLive burnable daa (burned ++ burnedOutpoints (strike score v2 est rh s miner).2) added
        (strike score v2 est rh s miner).1.vault ∧
      Sourced added (burnedOutpoints (strike score v2 est rh s miner).2) := by
  cases hr : s.1.rateLimited score miner with
  | true =>
    have hskip : BondBook.strike score v2 est rh s miner = s := by
      simp only [BondBook.strike, hr, if_true]
    rw [hskip]
    exact ⟨h, hsrc⟩
  | false =>
    obtain ⟨hvault, hmisses⟩ := strike_vault score v2 est rh s miner hr
    rw [hvault, hmisses, burnedOutpoints_append, ← append_assoc]
    simp only [burnedOutpoints, flatMap_cons, flatMap_nil, append_nil] at hsrc h ⊢
    exact ⟨h.burn hadm miner _, forall_mem_append.mpr ⟨hsrc, h.sourced_burn miner _⟩⟩

section

variable (h : HoldsLive burnable daa burned added b.vault)
include h

/-- **Settling a block** keeps the vault at the live claims. -/
theorem HoldsLive.settle (hadm : Admitted added) (score : ℕ) (v2 : Bool) (est : Hash → Bool)
    (t : BookTrace) :
    HoldsLive burnable daa (burned ++ burnedOutpoints (b.settle score v2 est t).2.1) added
        (b.settle score v2 est t).1.vault ∧
      Sourced added (burnedOutpoints (b.settle score v2 est t).2.1) := by
  simp only [BondBook.settle, vault_resetAll]
  refine foldlRecOn _ _ (motive := fun s : BondBook × List ServiceMiss =>
    HoldsLive burnable daa (burned ++ burnedOutpoints s.2) added s.1.vault ∧
      Sourced added (burnedOutpoints s.2)) ⟨?_, Sourced.nil⟩ ?_
  · rw [vault_resetAll, burnedOutpoints_nil, append_nil]
    exact h
  · exact fun s hs p _ => hs.1.strike hs.2 hadm score v2 est p.1 p.2

/-- The claims a burn takes are distinct and were not burned before. -/
theorem HoldsLive.nodup_burn (hadm : Admitted added) (hnodup : burned.Nodup) (miner : Hash)
    (penalty : ServicePenalty) :
    (burned ++ (b.burn miner penalty).2.map outpoint).Nodup := by
  rw [burn_eq b miner penalty h.tidy, h.claims miner]
  refine hnodup.append ?_ ?_
  · rw [map_reverse, nodup_reverse]
    exact hadm.nodup_liveClaims.sublist ((drop_sublist _ _).map _)
  · intro o ho ho'
    obtain ⟨c, hc, rfl⟩ := mem_map.mp ho'
    exact (mem_liveClaims (mem_of_mem_drop (mem_reverse.mp hc))).2 ho

/-- No outpoint is burned twice by a block, nor one burned before. -/
theorem HoldsLive.nodup_settle (hadm : Admitted added) (hnodup : burned.Nodup) (score : ℕ)
    (v2 : Bool) (est : Hash → Bool) (t : BookTrace) :
    (burned ++ burnedOutpoints (b.settle score v2 est t).2.1).Nodup := by
  refine (foldlRecOn _ _ (motive := fun s : BondBook × List ServiceMiss =>
    (burned ++ burnedOutpoints s.2).Nodup ∧
      HoldsLive burnable daa (burned ++ burnedOutpoints s.2) added s.1.vault ∧
      Sourced added (burnedOutpoints s.2)) ⟨?_, ?_, Sourced.nil⟩ ?_).1
  · rwa [burnedOutpoints_nil, append_nil]
  · rw [vault_resetAll, burnedOutpoints_nil, append_nil]
    exact h
  · rintro s ⟨hn, hlive, hsrc⟩ p -
    refine ⟨?_, hlive.strike hsrc hadm score v2 est p.1 p.2⟩
    cases hr : s.1.rateLimited score p.2 with
    | true => simpa only [BondBook.strike, hr, if_true] using hn
    | false =>
      rw [(strike_vault score v2 est p.1 s p.2 hr).2, burnedOutpoints_append, ← append_assoc]
      simpa only [burnedOutpoints, flatMap_cons, flatMap_nil, append_nil] using
        hlive.nodup_burn hadm hn p.2 _

end

/-- Two histories that differ in claims past the window leave the same vault. -/
theorem HoldsLive.eq_of_stale {old : List (Hash × EscrowClaim)}
    {vault' : OrdMap Hash (List EscrowClaim)}
    (h : HoldsLive burnable daa burned (old ++ added) vault)
    (h' : HoldsLive burnable daa burned added vault')
    (hold : ∀ e ∈ old, stale burnable daa e.2 = true) : vault = vault' := by
  refine h.tidy.ext h'.tidy fun m => ?_
  rw [h.claims, h'.claims, liveClaims_append, liveClaims_of_stale hold, nil_append]

end BondBook

/-! ### Folds -/

section Folds

open BondBook

variable {L : ServiceLedger} {daa : ℕ} {burned : List TransactionOutpoint}
  {added : List (Hash × EscrowClaim)} {i : FoldInput}

section

variable (h : HoldsLive L.burnable daa burned added L.vault)
include h

/-- **A normal fold** keeps the vault at the live claims; what its misses burn is burned. -/
theorem BondBook.HoldsLive.foldInner (hsrc : Sourced added burned) (hdaa : daa ≤ i.daa)
    (hadm : Admitted (added ++ i.escrows)) (est : Hash → Bool) (cohort : ℕ → List (Hash × Hash)) :
    let r := L.foldInner i none est cohort
    HoldsLive L.burnable i.daa (burned ++ burnedOutpoints r.2.misses) (added ++ i.escrows)
        r.1.vault ∧
      Sourced (added ++ i.escrows) (burned ++ burnedOutpoints r.2.misses) := by
  intro r
  have hr := foldInner_normal L i cohort est
  simp only [r, hr]
  have hopened := h.openBlock hdaa hadm (hsrc.kept hadm)
  obtain ⟨hlive, hnew⟩ := hopened.settle hadm i.daa (L.v2At i.daa) est
    (L.toRequestBook.replay L.toLedgerConfig i cohort)
  exact ⟨hlive, forall_mem_append.mpr ⟨hsrc.mono, hnew⟩⟩

/-- A normal fold burns no outpoint twice. -/
theorem BondBook.HoldsLive.nodup_foldInner (hsrc : Sourced added burned) (hnodup : burned.Nodup)
    (hdaa : daa ≤ i.daa) (hadm : Admitted (added ++ i.escrows)) (est : Hash → Bool)
    (cohort : ℕ → List (Hash × Hash)) :
    (burned ++ burnedOutpoints (L.foldInner i none est cohort).2.misses).Nodup := by
  have hr := foldInner_normal L i cohort est
  simp only [hr]
  exact (h.openBlock hdaa hadm (hsrc.kept hadm)).nodup_settle hadm hnodup i.daa
    (L.v2At i.daa) est (L.toRequestBook.replay L.toLedgerConfig i cohort)

/-- **A warmup fold** keeps the vault at the live claims of the burned set it reads. -/
theorem BondBook.HoldsLive.foldInner_warmup (hdaa : daa ≤ i.daa)
    (hadm : Admitted (added ++ i.escrows)) {isBurned : TransactionOutpoint → Bool}
    (hburned : ∀ e ∈ i.escrows, isBurned e.2.outpoint = decide (e.2.outpoint ∈ burned))
    (est : Hash → Bool) (cohort : ℕ → List (Hash × Hash)) :
    HoldsLive L.burnable i.daa burned (added ++ i.escrows)
      (L.foldInner i (some isBurned) est cohort).1.vault := by
  have hr := KeryxNode.foldInner_warmup L i cohort isBurned est
  simp only [hr]
  exact h.openBlock hdaa hadm fun e he => by rw [Option.any_some, hburned e he]

end

end Folds

end KeryxNode
