import Mathlib.Data.List.Induction
import KeryxNode.LedgerSnapshot

/-!
# The Vault Undo Log

A reorg restores the small part of the ledger from a light snapshot and walks the vault back
block by block through the undo log. This module shows that one undo step is the exact
inverse of the vault mutations of a normal fold, and says when it inverts a warmup fold: a
warmup fold reports no expired claims, so its undo entry restores none.

Vaults are compared through `claimsOf`, the claims of each miner; the fold never leaves an
empty deque behind (`Tidy`), so equal claims are equal vaults.
-/

namespace KeryxNode

open List OrdMap

namespace BondBook

variable {warmupBurned : Option (TransactionOutpoint → Bool)} {b : BondBook}
  (vault : OrdMap Hash (List EscrowClaim)) (daa : ℕ) (v2 : Bool) (est : Hash → Bool)

/-- The claims of a miner in a vault, oldest first. -/
def claimsOf (vault : OrdMap Hash (List EscrowClaim)) (miner : Hash) : List EscrowClaim :=
  (vault.get? miner).getD []

/-- No miner has an empty deque. -/
def Tidy (vault : OrdMap Hash (List EscrowClaim)) : Prop :=
  ∀ miner, vault.get? miner ≠ some []

variable {vault v w : OrdMap Hash (List EscrowClaim)} {miner : Hash} {c : EscrowClaim}

theorem tidy_iff_entries : Tidy vault ↔ ∀ e ∈ vault.entries, e.2 ≠ [] := by
  constructor
  · rintro h ⟨m, cs⟩ hmem rfl
    exact h m (get?_eq_some_iff.mpr hmem)
  · intro h m hget
    exact h (m, []) (get?_eq_some_iff.mp hget) rfl

/-- In a tidy vault the claims of a miner determine its entry. -/
theorem Tidy.get?_eq (h : Tidy v) (miner : Hash) :
    v.get? miner = if claimsOf v miner = [] then none else some (claimsOf v miner) := by
  cases hm : v.get? miner with
  | none => simp [claimsOf, hm]
  | some cs =>
    have hcs : cs ≠ [] := fun h0 => h miner (h0 ▸ hm)
    simp [claimsOf, hm, hcs]

/-- Tidy vaults with the same claims are equal. -/
theorem Tidy.ext (hv : Tidy v) (hw : Tidy w) (h : ∀ m, claimsOf v m = claimsOf w m) :
    v = w := by
  refine ext_get? fun m => ?_
  rw [hv.get?_eq, hw.get?_eq, h]

/-! ### The moves of a deque -/

/-- Installs the claims of a miner, or removes the deque if there are none. -/
def setClaims (vault : OrdMap Hash (List EscrowClaim)) (miner : Hash)
    (claims : List EscrowClaim) : OrdMap Hash (List EscrowClaim) :=
  if claims = [] then vault.erase miner else vault.insert miner claims

variable (miner : Hash)

theorem claimsOf_setClaims (m : Hash) (claims : List EscrowClaim) :
    claimsOf (setClaims vault miner claims) m
      = if m = miner then claims else claimsOf vault m := by
  unfold setClaims
  split
  · next h =>
    rw [claimsOf, get?_erase]
    split
    · rw [h]; rfl
    · rfl
  · rw [claimsOf, get?_insert]
    split <;> rfl

theorem tidy_setClaims (h : Tidy vault) (miner : Hash) (claims : List EscrowClaim) :
    Tidy (setClaims vault miner claims) := by
  intro m
  unfold setClaims
  split
  · rw [get?_erase]
    split
    · simp
    · exact h m
  · next hne =>
    rw [get?_insert]
    split
    · simpa using hne
    · exact h m

/-- Setting the claims a tidy vault already has changes nothing. -/
theorem setClaims_claimsOf (h : Tidy vault) (miner : Hash) :
    setClaims vault miner (claimsOf vault miner) = vault := by
  refine (tidy_setClaims h _ _).ext h fun m => ?_
  rw [claimsOf_setClaims]
  split
  · next hm => rw [hm]
  · rfl

@[simp] theorem setClaims_setClaims (a b : List EscrowClaim) (h : Tidy vault) :
    setClaims (setClaims vault miner a) miner b = setClaims vault miner b := by
  refine (tidy_setClaims (tidy_setClaims h _ _) _ _).ext (tidy_setClaims h _ _) fun m => ?_
  simp only [claimsOf_setClaims]
  split <;> rfl

theorem pushBack_eq (c : EscrowClaim) :
    pushBack vault miner c = setClaims vault miner (claimsOf vault miner ++ [c]) := by
  rw [setClaims, if_neg (by simp)]
  rfl

/-- Popping the claim just pushed gives the vault back. -/
theorem popBack_pushBack (h : Tidy vault) (miner : Hash) (c : EscrowClaim) :
    popBack (pushBack vault miner c) miner = some vault := by
  have hget : (pushBack vault miner c).get? miner = some (claimsOf vault miner ++ [c]) :=
    get?_insert_self _ _ _
  have hset : setClaims (pushBack vault miner c) miner (claimsOf vault miner) = vault := by
    rw [pushBack_eq, setClaims_setClaims _ _ _ h, setClaims_claimsOf h]
  cases hcs : claimsOf vault miner ++ [c] with
  | nil => simp at hcs
  | cons d ds =>
    have hrest : (d :: ds).dropLast = claimsOf vault miner := by
      rw [← hcs, dropLast_concat]
    rw [hcs] at hget
    simp only [popBack, hget, hrest]
    exact congrArg some hset

/-! ### What a fold does to the claims of a miner -/

/-- Admitting a claim pushes it, unless it is dropped as burned. -/
theorem vault_admitEscrow (s : BondBook × List Hash) (e : Hash × EscrowClaim) :
    (admitEscrow warmupBurned s e).1.vault
      = if warmupBurned.any fun isBurned => isBurned e.2.outpoint then s.1.vault
        else pushBack s.1.vault e.1 e.2 := by
  simp only [admitEscrow]
  split <;> split <;> rfl

/-- Admitting a list of claims pushes those that are not dropped in order. -/
theorem vault_admitEscrows (escrows : List (Hash × EscrowClaim)) (s : BondBook × List Hash) :
    (escrows.foldl (admitEscrow warmupBurned) s).1.vault
      = (escrows.filter fun e => !warmupBurned.any fun isBurned => isBurned e.2.outpoint).foldl
        (fun v e => pushBack v e.1 e.2) s.1.vault := by
  induction escrows generalizing s with
  | nil => rfl
  | cons e l ih =>
    rw [foldl_cons, ih, vault_admitEscrow, filter_cons]
    cases warmupBurned.any fun isBurned => isBurned e.2.outpoint <;> rfl

/-- Pushing claims appends to each deque the claims of its miner. -/
theorem claimsOf_foldl_pushBack (l : List (Hash × EscrowClaim))
    (v : OrdMap Hash (List EscrowClaim)) (m : Hash) :
    claimsOf (l.foldl (fun v e => pushBack v e.1 e.2) v) m
      = claimsOf v m ++ (l.filter fun e => decide (e.1 = m)).map Prod.snd := by
  induction l generalizing v with
  | nil => simp
  | cons e l ih =>
    rw [foldl_cons, ih, pushBack_eq, claimsOf_setClaims]
    by_cases hm : m = e.1
    · simp [hm]
    · simp [hm, Ne.symm hm]

theorem tidy_pushBack (h : Tidy vault) (miner : Hash) (c : EscrowClaim) :
    Tidy (pushBack vault miner c) := by
  rw [pushBack_eq]
  exact tidy_setClaims h _ _

theorem tidy_foldl_pushBack (h : Tidy vault) (l : List (Hash × EscrowClaim)) :
    Tidy (l.foldl (fun v e => pushBack v e.1 e.2) vault) := by
  induction l generalizing vault with
  | nil => exact h
  | cons e l ih => exact ih (tidy_pushBack h e.1 e.2)

/-- The purge drops the stale front of every deque. -/
theorem claimsOf_purgeExpired (b : BondBook) (burnable daa : ℕ) (m : Hash) :
    claimsOf (b.purgeExpired burnable daa).1.vault m
      = (claimsOf b.vault m).dropWhile (stale burnable daa) := by
  simp only [purgeExpired, claimsOf, get?_filter, get?_map]
  cases b.vault.get? m with
  | none => rfl
  | some cs =>
    simp only [Option.map_some, Option.filter_some]
    by_cases h : cs.dropWhile (stale burnable daa) = []
    · simp [h]
    · simp [h]

theorem tidy_purgeExpired (b : BondBook) (burnable daa : ℕ) :
    Tidy (b.purgeExpired burnable daa).1.vault := by
  intro m hm
  have h := (of_get?_filter hm).2
  simp at h

theorem burn_eq (b : BondBook) (miner : Hash) (penalty : ServicePenalty) (h : Tidy b.vault) :
    b.burn miner penalty =
      let claims := claimsOf b.vault miner
      let kept := claims.length - burnCount penalty claims
      ({ b with vault := setClaims b.vault miner (claims.take kept) },
        (claims.drop kept).reverse) := by
  cases hm : b.vault.get? miner with
  | none =>
    have hc : claimsOf b.vault miner = [] := by rw [claimsOf, hm]; rfl
    have hset : setClaims b.vault miner [] = b.vault := by
      have := setClaims_claimsOf h miner
      rwa [hc] at this
    simp only [burn, hm, hc, take_nil, drop_nil, reverse_nil, hset]
  | some cs =>
    have hc : claimsOf b.vault miner = cs := by rw [claimsOf, hm]; rfl
    simp only [burn, hm, hc, setClaims]

/-- A strike changes the vault as the burn of its penalty does. -/
theorem strike_vault (rh : Hash) (s : BondBook × List ServiceMiss) (miner : Hash)
    (h : s.1.rateLimited daa miner = false) :
    let penalty := strikePenaltyAt (s.1.consecutiveMisses miner + 1) (est miner) v2
    (strike daa v2 est rh s miner).1.vault = (s.1.burn miner penalty).1.vault ∧
      (strike daa v2 est rh s miner).2 = s.2 ++ [⟨rh, miner, s.1.consecutiveMisses miner + 1,
        penalty, (s.1.burn miner penalty).2⟩] := by
  simp only [strike, h, Bool.false_eq_true, if_false, burn]
  cases s.1.vault.get? miner with
  | none => constructor <;> (try split) <;> rfl
  | some cs => constructor <;> (try split) <;> rfl

/-! ### Undoing -/

/-- Pushing a list of claims of one miner extends its deque. -/
theorem foldl_pushBack_eq (h : Tidy vault) (miner : Hash) (l : List EscrowClaim) :
    l.foldl (fun v c => pushBack v miner c) vault
      = setClaims vault miner (claimsOf vault miner ++ l) := by
  induction l generalizing vault with
  | nil => rw [foldl_nil, append_nil, setClaims_claimsOf h]
  | cons c l ih =>
    rw [foldl_cons, ih (tidy_pushBack h _ _), pushBack_eq, claimsOf_setClaims,
      if_pos rfl, setClaims_setClaims _ _ _ h, append_assoc, singleton_append]

/-- Re-pushing the claims a burn took gives the vault back. -/
theorem unburn_burn (h : Tidy b.vault) (penalty : ServicePenalty) (miss : ServiceMiss)
    (hburned : miss.burned = (b.burn miss.miner penalty).2) :
    unburn (b.burn miss.miner penalty).1.vault miss = b.vault := by
  rw [unburn, hburned, burn_eq b _ _ h, reverse_reverse,
    foldl_pushBack_eq (tidy_setClaims h _ _), claimsOf_setClaims, if_pos rfl,
    take_append_drop, setClaims_setClaims _ _ _ h, setClaims_claimsOf h]

theorem tidy_burn (h : Tidy b.vault) (miner : Hash) (penalty : ServicePenalty) :
    Tidy (b.burn miner penalty).1.vault := by
  rw [burn_eq b miner penalty h]
  exact tidy_setClaims h _ _

theorem tidy_strike (rh : Hash) {s : BondBook × List ServiceMiss} (h : Tidy s.1.vault)
    (miner : Hash) :
    Tidy (strike daa v2 est rh s miner).1.vault := by
  cases hr : s.1.rateLimited daa miner with
  | true => simpa only [strike, hr, if_true] using h
  | false =>
    rw [(strike_vault daa v2 est rh s miner hr).1]
    exact tidy_burn h _ _

/-- Strikes are undone newest first. -/
theorem unburn_strikeAll (closings : List (Hash × Hash)) (s : BondBook × List ServiceMiss)
    (h : Tidy s.1.vault) :
    Tidy (strikeAll daa v2 est closings s).1.vault ∧
      (strikeAll daa v2 est closings s).2.reverse.foldl unburn
          (strikeAll daa v2 est closings s).1.vault
        = s.2.reverse.foldl unburn s.1.vault := by
  induction closings generalizing s with
  | nil => exact ⟨h, rfl⟩
  | cons p closings ih =>
    obtain ⟨rh, miner⟩ := p
    obtain ⟨htidy, hundo⟩ := ih (strike daa v2 est rh s miner) (tidy_strike _ _ _ _ h _)
    refine ⟨htidy, hundo.trans ?_⟩
    cases hr : s.1.rateLimited daa miner with
    | true => simp only [strike, hr, if_true]
    | false =>
      obtain ⟨hvault, hmisses⟩ := strike_vault daa v2 est rh s miner hr
      rw [hvault, hmisses, reverse_append, reverse_singleton, singleton_append, foldl_cons]
      congr 1
      exact unburn_burn h _ _ rfl

@[simp] theorem vault_resetAll (l : List Hash) (s : BondBook × List (Hash × ℕ)) :
    (resetAll v2 l s).1.vault = s.1.vault := by
  induction l generalizing s with
  | nil => rfl
  | cons k l ih =>
    refine (ih (resetServed v2 s k)).trans ?_
    unfold resetServed
    split <;> rfl

/-- Settling a block is undone by its misses. -/
theorem unburn_settle (t : BookTrace) (h : Tidy b.vault) :
    Tidy (b.settle daa v2 est t).1.vault ∧
      (b.settle daa v2 est t).2.1.reverse.foldl unburn (b.settle daa v2 est t).1.vault
        = b.vault := by
  have hserved : (resetAll v2 t.credits (b, [])).1.vault = b.vault := vault_resetAll _ _ _
  obtain ⟨htidy, hundo⟩ := unburn_strikeAll daa v2 est t.closings
    ((resetAll v2 t.credits (b, [])).1, []) (by rw [hserved]; exact h)
  simp only [settle, vault_resetAll]
  exact ⟨htidy, hundo.trans hserved⟩

/-- The purged claims of one miner are the stale front of its deque. -/
theorem expired_of_miner (p : EscrowClaim → Bool) (m : Hash) :
    ∀ {l : List (Hash × List EscrowClaim)}, l.Pairwise (fun a b => a.1 < b.1) →
      ((l.flatMap fun e => (e.2.takeWhile p).map fun c => (e.1, c)).filter
          fun e => decide (e.1 = m)).map Prod.snd
        = ((OrdMap.lookup m l).getD []).takeWhile p
  | [], _ => rfl
  | e :: l, h => by
    obtain ⟨hlt, hl⟩ := pairwise_cons.mp h
    have ih := expired_of_miner p m hl
    rw [flatMap_cons, filter_append, map_append, ih, OrdMap.lookup]
    by_cases hm : e.1 = m
    · have hnone : OrdMap.lookup m l = none := by
        rw [Option.eq_none_iff_forall_ne_some]
        intro v hv
        exact absurd (hlt _ ((lookup_eq_some_iff hl).mp hv)) (by simp [hm])
      simp [hm, hnone, filter_map]
    · simp [hm]

/-- Re-entering claims at the front, oldest last, prepends them to their deques. -/
theorem foldr_pushFront (h : Tidy vault) (l : List (Hash × EscrowClaim)) :
    Tidy (l.foldr (fun e v => pushFront v e.1 e.2) vault) ∧
      ∀ m, claimsOf (l.foldr (fun e v => pushFront v e.1 e.2) vault) m
        = (l.filter fun e => decide (e.1 = m)).map Prod.snd ++ claimsOf vault m := by
  induction l with
  | nil => exact ⟨h, fun _ => rfl⟩
  | cons e l ih =>
    obtain ⟨htidy, hclaims⟩ := ih
    rw [foldr_cons, show ∀ v, pushFront v e.1 e.2 = setClaims v e.1 (e.2 :: claimsOf v e.1)
      from fun _ => rfl]
    refine ⟨tidy_setClaims htidy _ _, fun m => ?_⟩
    rw [claimsOf_setClaims, hclaims, hclaims]
    by_cases hm : m = e.1
    · simp [hm]
    · simp [hm, Ne.symm hm]

/-- Re-entering the purged claims gives the vault back. -/
theorem unexpire_purgeExpired (h : Tidy b.vault) (burnable daa : ℕ) :
    (b.purgeExpired burnable daa).2.reverse.foldl (fun v e => pushFront v e.1 e.2)
      (b.purgeExpired burnable daa).1.vault = b.vault := by
  rw [foldl_reverse]
  obtain ⟨htidy, hclaims⟩ := foldr_pushFront (tidy_purgeExpired b burnable daa)
    (b.purgeExpired burnable daa).2
  refine htidy.ext h fun m => ?_
  rw [hclaims, claimsOf_purgeExpired]
  have hexp := expired_of_miner (stale burnable daa) m b.vault.sorted
  simp only [purgeExpired]
  rw [hexp]
  exact takeWhile_append_dropWhile

/-- Popping the claims a block added, newest first, gives the vault back. -/
theorem popBack_added (h : Tidy vault) (added : List (Hash × EscrowClaim)) :
    added.reverse.foldlM (fun v e => popBack v e.1)
      (added.foldl (fun v e => pushBack v e.1 e.2) vault) = some vault := by
  induction added using reverseRecOn with
  | nil => rfl
  | append_singleton l e ih =>
    rw [foldl_append, reverse_append, reverse_singleton, singleton_append, foldlM_cons]
    simp only [foldl_cons, foldl_nil]
    rw [popBack_pushBack (tidy_foldl_pushBack h l)]
    exact ih

theorem tidy_openBlock (b : BondBook) (burnable : ℕ) (i : FoldInput)
    (warmupBurned : Option (TransactionOutpoint → Bool)) :
    Tidy (b.openBlock burnable i warmupBurned).1.1.vault :=
  tidy_purgeExpired _ _ _

/-- Opening a block is undone by its expired and its added claims. -/
theorem undoVault_openBlock (h : Tidy b.vault) (burnable : ℕ) (i : FoldInput)
    (hkeep : ∀ e ∈ i.escrows,
      warmupBurned.any (fun isBurned => isBurned e.2.outpoint) = false) :
    undoVault (b.openBlock burnable i warmupBurned).1.1.vault i.escrows []
      (b.openBlock burnable i warmupBurned).1.2 = some b.vault := by
  have hvault := @vault_admitEscrows warmupBurned i.escrows (b, [])
  rw [filter_eq_self.mpr fun e he => by simp [hkeep e he]] at hvault
  simp only [undoVault, reverse_nil, foldl_nil, openBlock]
  rw [unexpire_purgeExpired (hvault ▸ tidy_foldl_pushBack h i.escrows), hvault]
  exact popBack_added h i.escrows

end BondBook

open BondBook

variable (L : ServiceLedger) (i : FoldInput) (est : Hash → Bool)
  (cohort : ℕ → List (Hash × Hash))

/-- A fold leaves the vault tidy. -/
theorem tidy_foldInner (warmupBurned : Option (TransactionOutpoint → Bool)) :
    Tidy (L.foldInner i warmupBurned est cohort).1.vault := by
  cases warmupBurned with
  | none =>
    rw [foldInner_normal]
    exact (unburn_settle _ _ _ _ (tidy_openBlock _ _ _ _)).1
  | some isBurned =>
    rw [foldInner_warmup]
    exact tidy_openBlock _ _ _ _

/-- **The undo entry of a normal fold inverts it**, and no undo step panics. -/
theorem undoVault_foldInner (h : Tidy L.vault) :
    let r := L.foldInner i none est cohort
    undoVault r.1.vault i.escrows r.2.misses r.2.expired = some L.vault := by
  intro r
  have hr := foldInner_normal L i cohort est
  simp only [r, hr, undoVault]
  rw [(unburn_settle _ _ _ _ (tidy_openBlock _ _ _ _)).2]
  exact undoVault_openBlock h L.burnable i fun _ _ => rfl

/-- The undo entry of a warmup fold restores no expired claim: it inverts the fold if the
fold purged nothing and dropped no claim on arrival. -/
theorem undoVault_foldInner_warmup (h : Tidy L.vault) {isBurned : TransactionOutpoint → Bool}
    (hkeep : ∀ e ∈ i.escrows, isBurned e.2.outpoint = false)
    (hpurge : (L.toBondBook.openBlock L.burnable i (some isBurned)).1.2 = []) :
    undoVault (L.foldInner i (some isBurned) est cohort).1.vault i.escrows [] []
      = some L.vault := by
  rw [foldInner_warmup]
  have hundo : undoVault (L.toBondBook.openBlock L.burnable i (some isBurned)).1.1.vault
      i.escrows [] (L.toBondBook.openBlock L.burnable i (some isBurned)).1.2 = some L.vault :=
    undoVault_openBlock h L.burnable i hkeep
  rwa [hpurge] at hundo

/-- **`undo_vault` is the inverse of a fold** on the vault, and it does not panic. -/
theorem undo_vault_inverts_fold (L : ServiceLedger) (i : FoldInput) (isEstablished : Hash → Bool)
    (cohort : ℕ → List (Hash × Hash)) (hvault : ∀ miner, L.vault.get? miner ≠ some []) :
    ∃ undone, (L.onChainBlockWithRewards i isEstablished cohort).1.undoVault i.escrows
        (L.onChainBlockWithRewards i isEstablished cohort).2.misses
        (L.onChainBlockWithRewards i isEstablished cohort).2.expired = some undone ∧
      undone.vault = L.vault := by
  have hundo := undoVault_foldInner L i isEstablished cohort hvault
  exact ⟨_, Option.map_eq_some_iff.mpr ⟨_, hundo, rfl⟩, rfl⟩

/-- A vault with one claim. -/
def loneVault : OrdMap Hash (List EscrowClaim) :=
  empty.insert 1 [⟨⟨1, 0⟩, 5, 0⟩]

/-- The claim is past the window when another one comes in. -/
theorem undo_vault_inverts_fold_lone :
    let i : FoldInput := { daa := serviceBurnableWindowDaa, escrows := [(1, ⟨⟨2, 0⟩, 5, 7⟩)] }
    let folded := ({ vault := loneVault } : ServiceLedger).onChainBlockWithRewards i
      (fun _ => true) fun _ => []
    folded.2.expired = [(1, ⟨⟨1, 0⟩, 5, 0⟩)] ∧
      ∃ undone, folded.1.undoVault i.escrows folded.2.misses folded.2.expired = some undone ∧
        undone.vault = loneVault :=
  ⟨by decide +kernel, undo_vault_inverts_fold _ _ _ _ (tidy_iff_entries.mpr (by decide +kernel))⟩

end KeryxNode
