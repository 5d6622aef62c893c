import KeryxNode.RefoldBooks
import KeryxNode.VaultHistory

/-!
# Refolding from a Baseline

A cold ledger is rebuilt by installing the persisted strike and sighting state of a cut as its
baseline, warming up over the burnable window below the cut, and folding normally above it.
This module compares the refolded ledger with the ledger that folded the whole run: the bond
books agree once flattened, the vaults hold the same live claims from the first block above
the cut on, and the request books are twins.

## Main results

* `warmup_refold_equivalence`: the refold of `on_chain_block` runs is exact when every request
  that can be pending above the cut had a quiet point inside the window and the ceiling on
  early answers is not met.
* `warmup_refold_early_answers`: a run whose early answers keep renewing across the window's
  floor refolds to other misses.
-/

namespace KeryxNode

open BondBook FoldOutcome List ServiceLedger FoldCall

variable {calls : List FoldCall}

/-! ### Runs of folds -/

namespace FoldOutcome

/-- What a fold reports besides the claims its purge dropped. -/
def observed (o : FoldOutcome) :
    List ServiceMiss × List (Hash × ℕ) × List Hash × List ServiceReward :=
  (o.misses, o.resets, o.sightings, o.rewards)

end FoldOutcome

/-- The outpoints a list of outcomes burned. -/
def burnedIn (outcomes : List FoldOutcome) : List TransactionOutpoint :=
  outcomes.flatMap fun o => burnedOutpoints o.misses

namespace ServiceLedger

variable (L : ServiceLedger)

@[simp] theorem config_fold (call : FoldCall) :
    (L.fold call).1.toLedgerConfig = L.toLedgerConfig := by
  simp only [fold, onChainBlockWithRewards, foldInner_normal]

@[simp] theorem config_run (calls : List FoldCall) :
    (L.run calls).1.toLedgerConfig = L.toLedgerConfig := by
  induction calls generalizing L with
  | nil => rfl
  | cons call calls ih => exact (ih _).trans (config_fold L call)

/-- The request side of a fold. -/
theorem book_fold (call : FoldCall) :
    (L.fold call).1.toRequestBook
      = (L.toRequestBook.replay L.toLedgerConfig call.input call.cohort).book := by
  simp only [fold, onChainBlockWithRewards, foldInner_normal]

/-- Folds a list of blocks as warmup. -/
def warm (isBurned : TransactionOutpoint → Bool) (L : ServiceLedger) (calls : List FoldCall) :
    ServiceLedger :=
  calls.foldl (fun M call => M.onChainBlockWarmupWithRewards call.input isBurned call.cohort) L

end ServiceLedger

/-! ### The vault along a run -/

/-- The claims a list of blocks creates. -/
def escrowsOf (calls : List FoldCall) : List (Hash × EscrowClaim) :=
  calls.flatMap fun call => call.input.escrows

namespace BlockRun

variable {calls : List FoldCall}

/-- The claims of a run enter in score order, each outpoint once. -/
theorem admitted (hrun : BlockRun calls) : Admitted (escrowsOf calls) := by
  refine ⟨?_, hrun.outpoints⟩
  have hincr := hrun.increasing
  rw [pairwise_map] at hincr
  rw [escrowsOf, pairwise_flatMap]
  refine ⟨fun call hcall => pairwise_of_forall_mem_list fun a ha b hb => ?_, ?_⟩
  · rw [hrun.claims call hcall a ha, hrun.claims call hcall b hb]
  · refine hincr.imp_of_mem fun {x y} hx hy hlt a ha b hb => ?_
    rw [hrun.claims x hx a ha, hrun.claims y hy b hb]
    exact hlt.le

end BlockRun

@[simp] theorem escrowsOf_cons (call : FoldCall) (calls : List FoldCall) :
    escrowsOf (call :: calls) = call.input.escrows ++ escrowsOf calls := rfl

@[simp] theorem escrowsOf_append (l l' : List FoldCall) :
    escrowsOf (l ++ l') = escrowsOf l ++ escrowsOf l' :=
  flatMap_append

@[simp] theorem burnedIn_cons (o : FoldOutcome) (l : List FoldOutcome) :
    burnedIn (o :: l) = burnedOutpoints o.misses ++ burnedIn l := rfl

variable {daa : ℕ} {burned : List TransactionOutpoint} {added : List (Hash × EscrowClaim)}
  {calls : List FoldCall}

section

variable (hincr : (daa :: calls.map fun call => call.input.daa).Pairwise (· ≤ ·))
  (hadm : Admitted (added ++ escrowsOf calls))
include hincr hadm

/-- A run of normal folds keeps the vault at the live claims. -/
theorem BondBook.HoldsLive.run {L : ServiceLedger}
    (h : HoldsLive L.burnable daa burned added L.vault) (hsrc : Sourced added burned) :
    ∃ d ∈ daa :: calls.map fun call => call.input.daa,
      HoldsLive L.burnable d (burned ++ burnedIn (L.run calls).2) (added ++ escrowsOf calls)
        (L.run calls).1.vault ∧
      Sourced (added ++ escrowsOf calls) (burned ++ burnedIn (L.run calls).2) := by
  induction calls generalizing L daa burned added with
  | nil =>
    refine ⟨daa, mem_cons_self, ?_, ?_⟩
    · simpa [run, escrowsOf, burnedIn] using h
    · simpa [run, escrowsOf, burnedIn] using hsrc
  | cons call calls ih =>
    obtain ⟨hle, hincr⟩ := pairwise_cons.mp hincr
    rw [escrowsOf_cons, ← append_assoc] at hadm
    obtain ⟨hfold, hsrc'⟩ : HoldsLive L.burnable call.input.daa
          (burned ++ burnedOutpoints (L.fold call).2.misses) (added ++ call.input.escrows)
          (L.fold call).1.vault ∧
        Sourced (added ++ call.input.escrows)
          (burned ++ burnedOutpoints (L.fold call).2.misses) :=
      h.foldInner hsrc (hle _ mem_cons_self) hadm.left call.isEstablished call.cohort
    have hburnable : (L.fold call).1.burnable = L.burnable := by
      rw [config_fold]
    obtain ⟨d, hd, hlive⟩ := ih hincr hadm (hburnable ▸ hfold) hsrc'
    rw [hburnable] at hlive
    refine ⟨d, mem_cons_of_mem _ hd, ?_⟩
    simpa only [run, burnedIn_cons, escrowsOf_cons, append_assoc] using hlive

/-- A run of warmup folds keeps the vault at the live claims of the burned set it reads. -/
theorem BondBook.HoldsLive.warm {M : ServiceLedger} {isBurned : TransactionOutpoint → Bool}
    (h : HoldsLive M.burnable daa burned added M.vault)
    (hburned : ∀ o, isBurned o = decide (o ∈ burned)) :
    ∃ d ∈ daa :: calls.map fun call => call.input.daa,
      HoldsLive M.burnable d burned (added ++ escrowsOf calls) (M.warm isBurned calls).vault := by
  induction calls generalizing M daa added with
  | nil => exact ⟨daa, mem_cons_self, by simpa [warm, escrowsOf] using h⟩
  | cons call calls ih =>
    obtain ⟨hle, hincr⟩ := pairwise_cons.mp hincr
    rw [escrowsOf_cons, ← append_assoc] at hadm
    have hfold := h.foldInner_warmup (hle _ mem_cons_self) hadm.left
      (fun e _ => hburned e.2.outpoint) (fun _ => true) call.cohort
    have hburnable : (M.onChainBlockWarmupWithRewards call.input isBurned call.cohort).burnable
        = M.burnable := by
      simp only [onChainBlockWarmupWithRewards, KeryxNode.foldInner_warmup]
    obtain ⟨d, hd, hlive⟩ := ih hincr hadm (hburnable ▸ hfold)
    rw [hburnable] at hlive
    refine ⟨d, mem_cons_of_mem _ hd, ?_⟩
    rwa [escrowsOf_cons, ← append_assoc]

end

/-! ### Two ledgers above the cut -/

namespace BondBook

/-- Sightings do not look at the vault. -/
theorem admitEscrows_setVault (warmupBurned : Option (TransactionOutpoint → Bool))
    (escrows : List (Hash × EscrowClaim)) (b : BondBook) (vault : OrdMap Hash (List EscrowClaim))
    (acc : List Hash) :
    ∃ vault', escrows.foldl (admitEscrow warmupBurned) ({ b with vault }, acc)
      = ({ (escrows.foldl (admitEscrow warmupBurned) (b, acc)).1 with vault := vault' },
          (escrows.foldl (admitEscrow warmupBurned) (b, acc)).2) := by
  refine foldl_rel (r := fun s s' : BondBook × List Hash => ∃ vault, s' = ({ s.1 with vault }, s.2))
    ⟨vault, rfl⟩ ?_
  rintro e - s _ ⟨vault, rfl⟩
  simp only [admitEscrow]
  split
  · split <;> exact ⟨_, rfl⟩
  · split <;> exact ⟨_, rfl⟩

/-- Opening a block on books that differ in their vaults gives books that differ in their
vaults, and the same sightings. -/
theorem openBlock_setVault (burnable : ℕ) (i : FoldInput)
    (warmupBurned : Option (TransactionOutpoint → Bool)) (b : BondBook)
    (vault : OrdMap Hash (List EscrowClaim)) :
    let r := ({ b with vault } : BondBook).openBlock burnable i warmupBurned
    r.2 = (b.openBlock burnable i warmupBurned).2 ∧
      r.1.1 = { (b.openBlock burnable i warmupBurned).1.1 with vault := r.1.1.vault } := by
  obtain ⟨vault', hvault'⟩ := admitEscrows_setVault warmupBurned i.escrows b vault []
  simp only [openBlock, hvault', purgeExpired, and_self]

/-- Settling reads the credits, closings and arming credits of a trace. -/
theorem settle_congr (b : BondBook) (daa : ℕ) (v2 : Bool) (est : Hash → Bool) {t t' : BookTrace}
    (h : SameBookTrace t t') : b.settle daa v2 est t = b.settle daa v2 est t' := by
  simp only [settle, h.credits, h.closings, h.armCredits]

end BondBook

/-- Two ledgers with twin request books whose bond books agree once flattened. -/
structure LedgerPair (calls : List FoldCall) (cut floor t : ℕ) (L M : ServiceLedger) : Prop where
  config : M.toLedgerConfig = L.toLedgerConfig
  books : Twins calls cut floor t L.toRequestBook M.toRequestBook
  bond : M.toBondBook.flatten = L.toBondBook.flatten

/-- Two ledgers at the cut: twin request books, the same strikes and sightings once flattened,
and vaults that differ in claims past the burnable window at any block above the cut. -/
structure CutPair (calls : List FoldCall) (cut floor t : ℕ) (burned : List TransactionOutpoint)
    (old added : List (Hash × EscrowClaim)) (L M : ServiceLedger) : Prop where
  config : M.toLedgerConfig = L.toLedgerConfig
  books : Twins calls cut floor t L.toRequestBook M.toRequestBook
  strikes : M.toBondBook.flatten.strikes = L.toBondBook.flatten.strikes
  firstSeen : M.toBondBook.flatten.firstSeen = L.toBondBook.flatten.firstSeen
  left : ∃ d ≤ cut, HoldsLive L.burnable d burned (old ++ added) L.vault
  right : ∃ d ≤ cut, HoldsLive L.burnable d burned added M.vault
  sourced : Sourced (old ++ added) burned
  old_stale : ∀ e ∈ old, e.2.daa + L.burnable ≤ cut + 1

section Above

variable {cut floor t : ℕ} {L M : ServiceLedger} {call : FoldCall} {old : List (Hash × EscrowClaim)}

section

variable (hsafe : Refoldable calls cut floor) (hcall : call ∈ calls) (ht : t ≤ call.input.daa)
  (hcut : cut < call.input.daa)
include hsafe hcall ht hcut

/-- A block above the cut on two ledgers with twin request books whose opened bond books agree
once flattened. -/
theorem LedgerPair.of_opened (hconfig : M.toLedgerConfig = L.toLedgerConfig)
    (books : Twins calls cut floor t L.toRequestBook M.toRequestBook)
    (hsightings : (M.toBondBook.openBlock L.burnable call.input none).2
      = (L.toBondBook.openBlock L.burnable call.input none).2)
    (hopened : (M.toBondBook.openBlock L.burnable call.input none).1.1.flatten
      = (L.toBondBook.openBlock L.burnable call.input none).1.1.flatten) :
    (M.fold call).2.observed = (L.fold call).2.observed ∧
      LedgerPair calls cut floor (call.input.daa + 1) (L.fold call).1 (M.fold call).1 := by
  have htrace := books.trace (c := L.toLedgerConfig) hsafe hcall ht hcut
  set trace := L.toRequestBook.replay L.toLedgerConfig call.input call.cohort
  set v2 := L.v2At call.input.daa
  have hsettle := settle_flatten (M.toBondBook.openBlock L.burnable call.input none).1.1
    call.input.daa v2 call.isEstablished trace
  rw [hopened, settle_flatten] at hsettle
  simp only [flattenLeft, Prod.mk.injEq] at hsettle
  have hM := foldInner_normal M call.input call.cohort call.isEstablished
  have hL := foldInner_normal L call.input call.cohort call.isEstablished
  simp only [hconfig] at hM
  rw [← settle_congr _ _ _ _ htrace] at hM
  refine ⟨?_, by rw [config_fold, config_fold, hconfig], ?_, ?_⟩
  · simp only [fold, onChainBlockWithRewards, hM, hL, observed]
    rw [hsettle.2, hsightings, htrace.rewards]
  · rw [book_fold, book_fold, hconfig]
    exact books.step hsafe hcall ht
  · simp only [fold, onChainBlockWithRewards, hM, hL]
    exact hsettle.1.symm

/-- One block above the cut. -/
theorem LedgerPair.fold (h : LedgerPair calls cut floor t L M) :
    (M.fold call).2.observed = (L.fold call).2.observed ∧
      LedgerPair calls cut floor (call.input.daa + 1) (L.fold call).1 (M.fold call).1 := by
  have hM := openBlock_flatten M.toBondBook L.burnable call.input none
  rw [h.bond, openBlock_flatten] at hM
  simp only [flattenLeft, Prod.mk.injEq] at hM
  exact of_opened hsafe hcall ht hcut h.config h.books hM.2.symm hM.1.1.symm

/-- The first block above the cut: its purge leaves both vaults with the same claims. -/
theorem CutPair.fold (h : CutPair calls cut floor t burned old added L M)
    (hadm : Admitted (old ++ added ++ call.input.escrows)) :
    (M.fold call).2.observed = (L.fold call).2.observed ∧
      LedgerPair calls cut floor (call.input.daa + 1) (L.fold call).1 (M.fold call).1 := by
  have hfresh := h.sourced.kept hadm
  obtain ⟨d, hd, hleft⟩ := h.left
  obtain ⟨d', hd', hright⟩ := h.right
  have hopenL := hleft.openBlock (by omega) hadm hfresh
  rw [append_assoc] at hadm hopenL
  have hopenM := hright.openBlock (by omega) hadm.right hfresh
  have hvault := hopenL.eq_of_stale hopenM fun e he => by
    have := h.old_stale e he
    exact decide_eq_true (by omega)
  -- The flattened books differ in their vaults before the block, and not after its opening.
  have hset : M.toBondBook.flatten = { L.toBondBook.flatten with vault := M.vault } := by
    have hstrikes := h.strikes
    have hfirst := h.firstSeen
    simp only [BondBook.flatten] at hstrikes hfirst ⊢
    rw [hstrikes, hfirst]
  have hM := openBlock_flatten M.toBondBook L.burnable call.input none
  have hL := openBlock_flatten L.toBondBook L.burnable call.input none
  obtain ⟨hsight, hbooks⟩ := openBlock_setVault L.burnable call.input none
    L.toBondBook.flatten M.vault
  rw [← hset, hM, hL] at hsight hbooks
  simp only [flattenLeft, vault_flatten] at hsight hbooks
  refine LedgerPair.of_opened hsafe hcall ht hcut h.config h.books hsight ?_
  rw [hbooks, ← hvault]
  rfl

end

/-- A run above the cut, once the first block is behind. -/
theorem LedgerPair.run (rest : List FoldCall) :
    ∀ {done : List FoldCall} {t : ℕ} {L M : ServiceLedger}, SplitAt calls done rest t →
      (∀ x ∈ rest, cut < x.input.daa) → Refoldable calls cut floor →
      LedgerPair calls cut floor t L M →
      (M.run rest).2.map observed = (L.run rest).2.map observed := by
  induction rest with
  | nil => exact fun _ _ _ _ => rfl
  | cons call rest ih =>
    intro done t L M hsplit hcut hsafe h
    obtain ⟨houtcome, hpair⟩ := h.fold hsafe hsplit.mem
      (hsplit.rest_le call mem_cons_self) (hcut call mem_cons_self)
    simp only [ServiceLedger.run, map_cons]
    congr 1
    exact ih (hsplit.next hsafe.run) (fun x hx => hcut x (mem_cons_of_mem _ hx)) hsafe hpair

/-- **Above the cut the two ledgers report the same.** -/
theorem CutPair.run {done rest : List FoldCall} (h : CutPair calls cut floor t burned old added L M)
    (hsplit : SplitAt calls done rest t) (hcut : ∀ x ∈ rest, cut < x.input.daa)
    (hsafe : Refoldable calls cut floor) (hadded : old ++ added = escrowsOf done) :
    (M.run rest).2.map observed = (L.run rest).2.map observed := by
  cases rest with
  | nil => rfl
  | cons call rest =>
    have hadm : Admitted (old ++ added ++ call.input.escrows) := by
      have := hsafe.run.admitted
      rw [hsplit.eq, escrowsOf_append, escrowsOf_cons, ← append_assoc] at this
      rw [hadded]
      exact this.left
    obtain ⟨houtcome, hpair⟩ := h.fold hsafe hsplit.mem
      (hsplit.rest_le call mem_cons_self) (hcut call mem_cons_self) hadm
    simp only [ServiceLedger.run, map_cons]
    congr 1
    exact LedgerPair.run rest (hsplit.next hsafe.run)
      (fun x hx => hcut x (mem_cons_of_mem _ hx)) hsafe hpair

end Above

/-! ### The refold -/

/-- A warmup fold touches the vault alone on the bond side. -/
theorem BondBook.openBlock_warmup (b : BondBook) (burnable : ℕ) (i : FoldInput)
    (isBurned : TransactionOutpoint → Bool) :
    (b.openBlock burnable i (some isBurned)).1.1
      = { b with vault := (b.openBlock burnable i (some isBurned)).1.1.vault } := by
  obtain ⟨vault, hvault⟩ : ∃ vault,
      (i.escrows.foldl (admitEscrow (some isBurned)) (b, [])).1 = { b with vault } := by
    refine foldlRecOn _ _
      (motive := fun s : BondBook × List Hash => ∃ vault, s.1 = { b with vault })
      ⟨b.vault, rfl⟩ ?_
    rintro s ⟨vault, hvault⟩ e -
    simp only [admitEscrow, Option.isNone_some, Bool.false_eq_true, false_and, if_false]
    split
    · exact ⟨vault, hvault⟩
    · exact ⟨_, by rw [hvault]⟩
  simp only [openBlock, purgeExpired, hvault]

namespace ServiceLedger

/-- Warmup folds leave everything but the request book and the vault alone. -/
theorem warm_spec (isBurned : TransactionOutpoint → Bool) (M : ServiceLedger)
    (calls : List FoldCall) :
    (M.warm isBurned calls).toLedgerConfig = M.toLedgerConfig ∧
      (M.warm isBurned calls).toRequestBook
        = M.toRequestBook.replayAll M.toLedgerConfig calls ∧
      (M.warm isBurned calls).toBondBook
        = { M.toBondBook with vault := (M.warm isBurned calls).vault } := by
  induction calls generalizing M with
  | nil => exact ⟨rfl, rfl, rfl⟩
  | cons call calls ih =>
    obtain ⟨hconfig, hbook, hbond⟩ :=
      ih (M.onChainBlockWarmupWithRewards call.input isBurned call.cohort)
    have hstep := foldInner_warmup M call.input call.cohort isBurned fun _ => true
    rw [warm, foldl_cons, ← warm]
    rw [onChainBlockWarmupWithRewards, hstep] at hconfig hbook hbond ⊢
    refine ⟨hconfig, hbook, hbond.trans ?_⟩
    rw [openBlock_warmup]

/-- The request side of a run. -/
theorem book_run (L : ServiceLedger) (calls : List FoldCall) :
    (L.run calls).1.toRequestBook = L.toRequestBook.replayAll L.toLedgerConfig calls := by
  induction calls generalizing L with
  | nil => rfl
  | cons call calls ih =>
    rw [run, ih, config_fold, book_fold]
    rfl

/-- A fresh ledger over the strike and sighting state of another. -/
def basedOn (c : LedgerConfig) (L : ServiceLedger) : ServiceLedger :=
  (({ toLedgerConfig := c } : ServiceLedger).setBase (L.base.overlay L.strikes)).setFirstSeenBase
    (L.firstSeenBase.overlay L.firstSeen)

end ServiceLedger

/-- **The refold at the cut**: a run folded from scratch and the ledger refolded from its
strikes and sightings over the blocks from the floor to the cut. -/
theorem CutPair.of_refold {c : LedgerConfig} {cut floor : ℕ} {pre mid high : List FoldCall}
    (hsafe : Refoldable (pre ++ mid ++ high) cut floor) (hfloor : floor ≤ cut + 1)
    (hpre : ∀ x ∈ pre, x.input.daa < floor ∧ x.input.daa + c.burnable ≤ cut + 1)
    (hmid : ∀ x ∈ mid, floor ≤ x.input.daa ∧ x.input.daa ≤ cut)
    (hhigh : ∀ x ∈ high, cut < x.input.daa) :
    let L := ({ toLedgerConfig := c } : ServiceLedger).run (pre ++ mid)
    let M := (basedOn c L.1).warm (fun o => decide (o ∈ burnedIn L.2)) mid
    ∃ t, SplitAt (pre ++ mid ++ high) (pre ++ mid) high t ∧
      CutPair (pre ++ mid ++ high) cut floor t (burnedIn L.2) (escrowsOf pre) (escrowsOf mid) L.1
        M := by
  intro L M
  have hlow : ((pre ++ mid).map fun call => call.input.daa).Pairwise (· ≤ ·) := by
    have := hsafe.run.increasing
    rw [map_append, pairwise_append] at this
    exact this.1.imp le_of_lt
  have hadm : Admitted (escrowsOf pre ++ escrowsOf mid) := by
    have := hsafe.run.admitted
    rw [escrowsOf_append, escrowsOf_append] at this
    exact this.left
  have hcutLow : ∀ d ∈ 0 :: (pre ++ mid).map fun call => call.input.daa, d ≤ cut := by
    intro d hd
    rcases mem_cons.mp hd with rfl | hd
    · exact Nat.zero_le _
    · obtain ⟨x, hx, rfl⟩ := mem_map.mp hd
      rcases mem_append.mp hx with hx | hx
      · have := (hpre x hx).1
        omega
      · exact (hmid x hx).2
  have hconfig : L.1.toLedgerConfig = c := config_run _ _
  obtain ⟨hconfigM, hbookM, hbondM⟩ := warm_spec
    (fun o => decide (o ∈ burnedIn L.2)) (basedOn c L.1) mid
  have hbondM' : M.toBondBook
      = { (basedOn c L.1).toBondBook with vault := M.vault } := hbondM
  -- Request books: twins at the floor, in step up to the cut.
  have hsplit₀ : SplitAt (pre ++ mid ++ high) pre (mid ++ high) floor := by
    refine ⟨append_assoc _ _ _, fun x hx => (hpre x hx).1, fun x hx => ?_⟩
    rcases mem_append.mp hx with hx | hx
    · exact (hmid x hx).1
    · have := hhigh x hx
      omega
  obtain ⟨t, hsplit, htwins⟩ := (Twins.init hsafe hsplit₀).replayAll (c := c) hsafe hsplit₀
  have hbookL : L.1.toRequestBook = (RequestBook.replayAll c {} pre).replayAll c mid := by
    rw [book_run]
    exact foldl_append
  -- Vaults: both hold the live claims of what they admitted.
  obtain ⟨d, hd, hlive, hsrc⟩ := HoldsLive.run (L := { toLedgerConfig := c })
    (pairwise_cons.mpr ⟨fun _ _ => Nat.zero_le _, hlow⟩)
    (by rwa [escrowsOf_append]) (HoldsLive.empty c.burnable 0 []) Sourced.nil
  rw [escrowsOf_append] at hlive hsrc
  rw [map_append] at hlow
  obtain ⟨d', hd', hwarm⟩ := HoldsLive.warm (M := basedOn c L.1)
    (pairwise_cons.mpr ⟨fun _ _ => Nat.zero_le _, (pairwise_append.mp hlow).2.1⟩)
    (by rw [nil_append]; exact hadm.right) (HoldsLive.empty c.burnable 0 (burnedIn L.2))
    fun _ => rfl
  refine ⟨t, hsplit, ⟨?_, ?_, ?_, ?_, ⟨d, hcutLow d hd, ?_⟩, ⟨d', hcutLow d' ?_, ?_⟩, hsrc, ?_⟩⟩
  · rw [hconfig]
    exact hconfigM
  · rw [hbookL, show M.toRequestBook = RequestBook.replayAll c {} mid from hbookM]
    exact htwins
  · rw [hbondM']
    rfl
  · rw [hbondM']
    rfl
  · rw [hconfig]
    exact hlive
  · rw [map_append]
    exact cons_subset_cons _ (subset_append_right _ _) hd'
  · rw [hconfig]
    exact hwarm
  · intro e he
    obtain ⟨x, hx, hex⟩ := mem_flatMap.mp he
    rw [hconfig, hsafe.run.claims x (mem_append_left _ (mem_append_left _ hx)) e hex]
    exact (hpre x hx).2

/-! ### `on_chain_block` runs -/

/-- A block as `on_chain_block` folds it: no vaulted rewards, no producers. -/
def FoldCall.plain (call : FoldCall) : FoldCall :=
  { call with input := { call.input with requestRewards := [], producers := [] } }

namespace ServiceLedger

/-- Folds a list of blocks with `on_chain_block`. -/
def onChainBlocks (L : ServiceLedger) : List FoldCall → ServiceLedger × List FoldOutcome
  | [] => (L, [])
  | call :: calls =>
    let folded := L.onChainBlock call.input call.isEstablished call.cohort
    let rest := folded.1.onChainBlocks calls
    (rest.1, folded.2 :: rest.2)

/-- Folds a list of blocks with `on_chain_block_warmup`. -/
def onChainBlocksWarmup (isBurned : TransactionOutpoint → Bool) (L : ServiceLedger)
    (calls : List FoldCall) : ServiceLedger :=
  calls.foldl (fun M call => M.onChainBlockWarmup call.input isBurned call.cohort) L

theorem onChainBlocks_eq_run (L : ServiceLedger) (calls : List FoldCall) :
    L.onChainBlocks calls = L.run (calls.map plain) := by
  induction calls generalizing L with
  | nil => rfl
  | cons call calls ih =>
    simp only [onChainBlocks, ih]
    rfl

/-- The refold at a cut of a run that `L` folded up to the cut: a fresh ledger over the strikes
and sightings of `L`, warmed up over the burnable window with what `L` burned. -/
def refoldedAt (c : LedgerConfig) (cut : ℕ) (L : ServiceLedger × List FoldOutcome)
    (calls : List FoldCall) : ServiceLedger :=
  (basedOn c L.1).onChainBlocksWarmup (fun o => decide (o ∈ burnedIn L.2))
    (calls.filter fun call =>
      decide (cut < call.input.daa + c.burnable ∧ call.input.daa ≤ cut))

end ServiceLedger

/-- The blocks of a run at or below the cut are those below the window and those inside it. -/
theorem filter_window (hincr : (calls.map fun call => call.input.daa).Pairwise (· < ·))
    (cut window : ℕ) :
    (calls.filter fun call => decide (call.input.daa + window ≤ cut)) ++
        calls.filter (fun call => decide (cut < call.input.daa + window ∧ call.input.daa ≤ cut))
      = calls.filter fun call => decide (call.input.daa ≤ cut) := by
  have hlow : (calls.filter fun call => decide (call.input.daa ≤ cut)).Pairwise
      fun a b => a.input.daa + window < b.input.daa + window :=
    ((pairwise_map.mp hincr).sublist filter_sublist).imp fun hab => Nat.add_lt_add_right hab window
  rw [← filter_le_append_filter_lt hlow cut, filter_filter, filter_filter]
  congr 1
  · refine filter_congr fun call _ => ?_
    rw [Bool.eq_iff_iff]
    simp only [decide_eq_true_eq, Bool.and_eq_true]
    omega
  · exact filter_congr fun call _ => Bool.decide_and _ _

theorem acceptedAt_plain {h : Hash} {a : ℕ} :
    AcceptedAt (calls.map plain) h a ↔ AcceptedAt calls h a := by
  simp only [AcceptedAt, mem_map, exists_exists_and_eq_and, plain]

theorem answeredAt_plain {h : Hash} {s : ℕ} :
    AnsweredAt (calls.map plain) h s ↔ AnsweredAt calls h s := by
  simp only [AnsweredAt, mem_map, exists_exists_and_eq_and, plain]

/-- Dropping rewards and producers keeps a run refoldable; no cohort member needs a script. -/
theorem refoldable_plain {cut floor : ℕ} (hrun : BlockRun calls) (hcrowd : Uncrowded calls)
    (hquiet : QuietBefore calls cut floor) :
    Refoldable (calls.map plain) cut floor where
  run := by
    refine ⟨?_, ?_, ?_, ?_⟩
    · rw [map_map]
      exact hrun.increasing
    · intro call hcall
      obtain ⟨x, hx, rfl⟩ := mem_map.mp hcall
      exact hrun.claims x hx
    · rw [flatMap_map]
      exact hrun.outpoints
    · rw [flatMap_map]
      exact hrun.requests
  uncrowded := by
    intro call hcall
    obtain ⟨x, hx, rfl⟩ := mem_map.mp hcall
    have hwithin : answeredWithin (calls.map plain) x.plain.input.daa
        = answeredWithin calls x.input.daa := by
      rw [answeredWithin, filter_map, flatMap_map]
      rfl
    rw [hwithin]
    exact hcrowd x hx
  producers := by
    intro call hcall
    obtain ⟨x, -, rfl⟩ := mem_map.mp hcall
    rfl
  quiet := by
    intro h a hacc hyoung
    obtain ⟨gap, hgap⟩ := hquiet h a (acceptedAt_plain.mp hacc) hyoung
    exact ⟨gap, hgap.inside, hgap.before, fun s hs => hgap.quiet s (answeredAt_plain.mp hs)⟩

/-- **Warmup refold equivalence**: let `L` fold a run with `on_chain_block`, and `M` start over
the strikes and sightings of `L` at a cut, warm up over the burnable window below the cut and
fold the blocks above it. If no early horizon of the run has more distinct answered hashes
than the ledger holds early, and every request that can be pending above the cut was accepted
inside the window after a quiet point of its answers, both report the same misses, resets,
sightings and rewards at every block above the cut. -/
theorem warmup_refold_equivalence (c : LedgerConfig) {calls : List FoldCall}
    (hrun : BlockRun calls) (cut : ℕ) (hcrowd : Uncrowded calls)
    (hquiet : QuietBefore calls cut (cut + 1 - c.burnable)) :
    let low := calls.filter fun call => decide (call.input.daa ≤ cut)
    let high := calls.filter fun call => decide (cut < call.input.daa)
    let L := ({ toLedgerConfig := c } : ServiceLedger).onChainBlocks low
    let M := refoldedAt c cut L calls
    (M.onChainBlocks high).2.map observed
      = (L.1.onChainBlocks high).2.map observed := by
  intro low high L M
  set pre := calls.filter fun call => decide (call.input.daa + c.burnable ≤ cut)
  set mid := calls.filter fun call =>
    decide (cut < call.input.daa + c.burnable ∧ call.input.daa ≤ cut)
  have hlow : pre ++ mid = low := filter_window hrun.increasing cut c.burnable
  have hcalls : low ++ high = calls :=
    filter_le_append_filter_lt (pairwise_map.mp hrun.increasing) cut
  have hsafe := refoldable_plain hrun hcrowd hquiet
  rw [← hcalls, ← hlow, map_append, map_append] at hsafe
  have hmem : ∀ {p : FoldCall → Prop} [DecidablePred p] {x : FoldCall},
      x ∈ (calls.filter fun call => decide (p call)).map plain →
      ∃ y, p y ∧ y.plain = x := by
    intro p _ x hx
    obtain ⟨y, hy, rfl⟩ := mem_map.mp hx
    exact ⟨y, of_decide_eq_true (mem_filter.mp hy).2, rfl⟩
  have hhigh : ∀ x ∈ high.map plain, cut < x.input.daa := fun x hx => by
    obtain ⟨y, hy, rfl⟩ := hmem hx
    exact hy
  obtain ⟨t, hsplit, hpair⟩ := CutPair.of_refold hsafe (Nat.sub_le _ _)
    (fun x hx => by
      obtain ⟨y, hy, rfl⟩ := hmem hx
      exact ⟨Nat.lt_sub_of_add_lt (Nat.lt_succ_of_le hy), Nat.le_succ_of_le hy⟩)
    (fun x hx => by
      obtain ⟨y, hy, rfl⟩ := hmem hx
      exact ⟨Nat.sub_le_of_le_add hy.1, hy.2⟩) hhigh
  have hL : L = ({ toLedgerConfig := c } : ServiceLedger).run
      (pre.map plain ++ mid.map plain) := by
    rw [← map_append, hlow]
    exact onChainBlocks_eq_run _ _
  have hM : M = (basedOn c L.1).warm (fun o => decide (o ∈ burnedIn L.2))
      (mid.map plain) := by
    rw [warm, foldl_map]
    rfl
  rw [← hL, ← hM] at hpair
  rw [onChainBlocks_eq_run, onChainBlocks_eq_run]
  exact hpair.run hsplit hhigh hsafe (by rw [escrowsOf_append])

/-! ### Runs at a cut -/

/-- A block of a run whose only cohort is identity 1, which answers with key 1. -/
def cohortBlock (i : FoldInput) : FoldCall :=
  { input := i, isEstablished := fun _ => true, cohort := fun _ => [(1, 1)] }

/-- Identity 1 locks a claim and stays silent on request 9. Another key answers it twice before it
is accepted, and the first of these answers is forgotten by then. -/
def silentRun : List FoldCall :=
  [cohortBlock { daa := 10, escrows := [(1, ⟨⟨5, 0⟩, 7, 10⟩)], responses := [(9, some 2)] },
    cohortBlock { daa := 40000, responses := [(9, some 2)] },
    cohortBlock { daa := 40100, requests := [(9, 0, 0)] }, cohortBlock { daa := 40101 },
    cohortBlock { daa := 40402 }]

/-- The run of identity 1 refolds exactly at the cut below the closing of its audit, with an early
answer on the way, and the closing strikes it. -/
theorem warmup_refold_equivalence_silentRun :
    let low := silentRun.filter fun call => decide (call.input.daa ≤ 40100)
    let high := silentRun.filter fun call => decide (40100 < call.input.daa)
    let L := ({} : ServiceLedger).onChainBlocks low
    let M := refoldedAt {} 40100 L silentRun
    (M.pending.get? 9).map PendingRequest.earlyResponders = some [2] ∧
      (M.onChainBlocks high).2.map observed
        = (L.1.onChainBlocks high).2.map observed ∧
      ((L.1.onChainBlocks high).2.flatMap misses).map ServiceMiss.burned
        = [[⟨⟨5, 0⟩, 7, 10⟩]] := by
  refine ⟨by decide +kernel, warmup_refold_equivalence {} ⟨by decide, by decide, by decide,
    by decide⟩ 40100 (by unfold Uncrowded; decide) ?_, by decide +kernel⟩
  -- The answers are quiet when the first one is forgotten.
  rintro h a ⟨call, hcall, rfl, rq, hrq, -⟩ -
  have hbefore : ∀ x ∈ silentRun, x.input.requests ≠ [] → 36010 < x.input.daa := by decide
  have hquiet : ∀ x ∈ silentRun, x.input.responses ≠ [] → x.input.daa ≤ 36010 →
      x.input.daa + serviceEarlyResponseHorizonDaa ≤ 36010 := by decide
  refine ⟨36010, by decide, hbefore call hcall (ne_nil_of_mem hrq), ?_⟩
  rintro s ⟨x, hx, rfl, resp, hresp, -⟩
  exact hquiet x hx (ne_nil_of_mem hresp)

/-- A block with an answer to request 9 signed by a key. -/
def answerBlock (daa : ℕ) (key : Hash) : FoldCall :=
  cohortBlock { daa, responses := [(9, some key)] }

/-- Answers to request 9 renewed at both ends of every early horizon across the window below
score 360000. Only the last but one is signed by the key of identity 1. -/
def renewedAnswers : List FoldCall :=
  answerBlock 0 2 ::
    (range 10).flatMap (fun k => [answerBlock (36000 * (k + 1) - 1) (if k = 9 then 1 else 2),
      answerBlock (36000 * (k + 1)) 2]) ++
    [cohortBlock { daa := 360001, requests := [(9, 0, 0)] }, cohortBlock { daa := 360002 },
      cohortBlock { daa := 360303 }]

/-- **A refold that loses a strike**: the whole run stamps the early answers of request 9 at
scores 0, 36000, …, 360000, so the answer of identity 1 at 359999 expires with the stamp of
324000 before the request is accepted at 360001, and identity 1 is struck when the audit
closes. The refold at 360000 does not see the block at score 0: its stamps fall on 35999,
71999, …, 359999, the answer of identity 1 is still held, and nobody is struck. -/
theorem warmup_refold_early_answers :
    let low := renewedAnswers.filter fun call => decide (call.input.daa ≤ 360000)
    let high := renewedAnswers.filter fun call => decide (360000 < call.input.daa)
    let L := ({} : ServiceLedger).onChainBlocks low
    let M := refoldedAt {} 360000 L renewedAnswers
    BlockRun renewedAnswers ∧
      ((L.1.onChainBlocks high).2.flatMap misses).map ServiceMiss.miner = [1] ∧
      (M.onChainBlocks high).2.flatMap misses = [] := by
  exact ⟨⟨by decide +kernel, by decide +kernel, by decide +kernel, by decide +kernel⟩,
    by decide +kernel, by decide +kernel⟩

end KeryxNode
