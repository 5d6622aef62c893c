import KeryxNode.FoldSplit

/-!
# Snapshots of the Ledger

Three ways back to an earlier state of `ServiceLedger`. A *light snapshot* keeps everything
but the vault and is taken after every chain block; the vault is walked back through a
per-block undo log (`undoVault`). A *snapshot* is the self-contained image shipped to a
syncing peer: the effective state, with the strike and sighting baselines folded into their
deltas.

The image forgets which part of a streak came from the baseline. `BondBook.flatten` is what
it keeps of the bond side, and the fold never sees the difference.
-/

namespace KeryxNode

open OrdMap BondBook

/-! ### Images -/

/-- Self-contained image of the ledger after one chain block. -/
structure ServiceLedgerSnapshot extends RequestBook where
  vault : OrdMap Hash (List EscrowClaim) := .empty
  strikes : OrdMap Hash StrikeEntry := .empty
  firstSeen : OrdMap Hash ℕ := .empty
  /-- `(chain daa, identity, tier, escrow key)` of the paid blues inside the eligibility
  window ending at the snapshot block, chain order. -/
  recentProducers : List (ℕ × Hash × ℕ × Hash) := []
  deriving DecidableEq

/-- Everything but the vault. -/
structure LightSnapshot extends RequestBook where
  strikes : OrdMap Hash StrikeEntry
  base : OrdMap Hash StrikeEntry
  firstSeen : OrdMap Hash ℕ
  firstSeenBase : OrdMap Hash ℕ
  deriving DecidableEq

namespace ServiceLedger

/-- The effective state as a canonical image. -/
def snapshot (L : ServiceLedger) : ServiceLedgerSnapshot :=
  { toRequestBook := L.toRequestBook
    vault := L.vault
    strikes := L.base.overlay L.strikes
    firstSeen := L.firstSeenBase.overlay L.firstSeen
    recentProducers := [] }

/-- Replaces the folded state with an image; the configuration is kept. -/
def restoreSnapshot (L : ServiceLedger) (s : ServiceLedgerSnapshot) : ServiceLedger :=
  { toLedgerConfig := L.toLedgerConfig
    toRequestBook := s.toRequestBook
    toBondBook :=
      { strikes := s.strikes, vault := s.vault, base := .empty
        firstSeen := s.firstSeen, firstSeenBase := .empty } }

/-- The small reorg-restore state. -/
def lightSnapshot (L : ServiceLedger) : LightSnapshot :=
  { toRequestBook := L.toRequestBook
    strikes := L.strikes, base := L.base
    firstSeen := L.firstSeen, firstSeenBase := L.firstSeenBase }

/-- Restores everything but the vault. -/
def restoreLight (L : ServiceLedger) (s : LightSnapshot) : ServiceLedger :=
  { toLedgerConfig := L.toLedgerConfig
    toRequestBook := s.toRequestBook
    toBondBook :=
      { strikes := s.strikes, vault := L.vault, base := s.base
        firstSeen := s.firstSeen, firstSeenBase := s.firstSeenBase } }

end ServiceLedger

/-! ### The vault undo log -/

namespace BondBook

/-- Appends a claim at the back of the miner's deque. -/
def pushBack (vault : OrdMap Hash (List EscrowClaim)) (miner : Hash) (c : EscrowClaim) :
    OrdMap Hash (List EscrowClaim) :=
  vault.insert miner ((vault.get? miner).getD [] ++ [c])

/-- Prepends a claim at the front of the miner's deque. -/
def pushFront (vault : OrdMap Hash (List EscrowClaim)) (miner : Hash) (c : EscrowClaim) :
    OrdMap Hash (List EscrowClaim) :=
  vault.insert miner (c :: (vault.get? miner).getD [])

/-- Pops the newest claim of the miner, and the deque if that leaves it empty. The source
panics where there is no deque or no claim. That the claim popped is the one to undo is asserted in
debug builds only and is not part of the model. -/
def popBack (vault : OrdMap Hash (List EscrowClaim)) (miner : Hash) :
    Option (OrdMap Hash (List EscrowClaim)) :=
  match vault.get? miner with
  | none => none
  | some [] => none
  | some (c :: cs) =>
    let rest := (c :: cs).dropLast
    some (if rest = [] then vault.erase miner else vault.insert miner rest)

/-- Re-pushes the claims a miss burned, oldest first. -/
def unburn (vault : OrdMap Hash (List EscrowClaim)) (miss : ServiceMiss) :
    OrdMap Hash (List EscrowClaim) :=
  miss.burned.reverse.foldl (fun v c => pushBack v miss.miner c) vault

/-- Reverses one folded block's vault mutations: burns first, then the expiries, then the
block's own claims. -/
def undoVault (vault : OrdMap Hash (List EscrowClaim)) (added : List (Hash × EscrowClaim))
    (misses : List ServiceMiss) (expired : List (Hash × EscrowClaim)) :
    Option (OrdMap Hash (List EscrowClaim)) :=
  let burned := misses.reverse.foldl unburn vault
  let unexpired := expired.reverse.foldl (fun v e => pushFront v e.1 e.2) burned
  added.reverse.foldlM (fun v e => popBack v e.1) unexpired

end BondBook

/-- Reverses one folded block's vault mutations; `none` is a panic. -/
def ServiceLedger.undoVault (L : ServiceLedger) (added : List (Hash × EscrowClaim))
    (misses : List ServiceMiss) (expired : List (Hash × EscrowClaim)) :
    Option ServiceLedger :=
  (BondBook.undoVault L.vault added misses expired).map fun vault =>
    { L with toBondBook := { L.toBondBook with vault } }

/-! ### Flattening -/

namespace BondBook

/-- The bond book with its baselines folded into their deltas. -/
def flatten (b : BondBook) : BondBook :=
  { strikes := b.base.overlay b.strikes, vault := b.vault, base := .empty
    firstSeen := b.firstSeenBase.overlay b.firstSeen, firstSeenBase := .empty }

variable (b : BondBook) (miner : Hash)

@[simp] theorem vault_flatten : b.flatten.vault = b.vault := rfl

@[simp] theorem strikeState_flatten : b.flatten.strikeState miner = b.strikeState miner := by
  simp only [strikeState, flatten, get?_overlay, get?_empty, Option.or_none]

@[simp] theorem consecutiveMisses_flatten :
    b.flatten.consecutiveMisses miner = b.consecutiveMisses miner := by
  rw [consecutiveMisses, strikeState_flatten, consecutiveMisses]

variable (daa : ℕ)

@[simp] theorem rateLimited_flatten :
    b.flatten.rateLimited daa miner = b.rateLimited daa miner := by
  rw [rateLimited, strikeState_flatten, rateLimited]

variable (v2 : Bool)

@[simp] theorem resetPreservedLastDaa_flatten :
    b.flatten.resetPreservedLastDaa v2 miner = b.resetPreservedLastDaa v2 miner := by
  rw [resetPreservedLastDaa, strikeState_flatten, resetPreservedLastDaa]

/-- Flattening after a strike write is the write after flattening. -/
theorem flatten_insert_strikes (e : StrikeEntry) :
    { b with strikes := b.strikes.insert miner e }.flatten
      = { b.flatten with strikes := b.flatten.strikes.insert miner e } := by
  simp only [flatten, overlay_insert_right]

/-- An identity is unsighted in both layers exactly when it is in the flattened one. -/
theorem unsighted_flatten :
    (¬ b.flatten.firstSeen.contains miner ∧ ¬ b.flatten.firstSeenBase.contains miner)
      ↔ (¬ b.firstSeen.contains miner ∧ ¬ b.firstSeenBase.contains miner) := by
  simp only [Bool.not_eq_true, contains_eq_false, flatten, get?_overlay,
    get?_empty, Option.or_eq_none_iff, and_true]

/-- Flattening after a sighting is the sighting after flattening. -/
theorem flatten_insert_firstSeen :
    { b with firstSeen := b.firstSeen.insert miner daa }.flatten
      = { b.flatten with firstSeen := b.flatten.firstSeen.insert miner daa } := by
  simp only [flatten, overlay_insert_right]

variable {α : Type}

/-- The flattened bond book beside what a fold accumulates. -/
def flattenLeft (s : BondBook × α) : BondBook × α :=
  (s.1.flatten, s.2)

/-- Admitting a claim commutes with flattening. -/
theorem admitEscrow_flatten (warmupBurned : Option (TransactionOutpoint → Bool))
    (s : BondBook × List Hash) (e : Hash × EscrowClaim) :
    admitEscrow warmupBurned (flattenLeft s) e = flattenLeft (admitEscrow warmupBurned s e) := by
  simp only [admitEscrow, flattenLeft, unsighted_flatten]
  by_cases hs : warmupBurned.isNone ∧ ¬ s.1.firstSeen.contains e.1
      ∧ ¬ s.1.firstSeenBase.contains e.1
  · simp only [← flatten_insert_firstSeen]
    split <;> rfl
  · split <;> rfl

/-- Opening a block commutes with flattening. -/
theorem openBlock_flatten (burnable : ℕ) (i : FoldInput)
    (warmupBurned : Option (TransactionOutpoint → Bool)) :
    b.flatten.openBlock burnable i warmupBurned
      = (flattenLeft (b.openBlock burnable i warmupBurned).1,
          (b.openBlock burnable i warmupBurned).2) := by
  have h : i.escrows.foldl (admitEscrow warmupBurned) (flattenLeft (b, []))
      = flattenLeft (i.escrows.foldl (admitEscrow warmupBurned) (b, [])) :=
    List.foldl_hom _ (admitEscrow_flatten warmupBurned)
  simp only [openBlock]
  rw [show (b.flatten, ([] : List Hash)) = flattenLeft (b, []) from rfl, h]
  rfl

/-- A reset commutes with flattening. -/
theorem resetServed_flatten (s : BondBook × List (Hash × ℕ)) (identity : Hash) :
    resetServed v2 (flattenLeft s) identity = flattenLeft (resetServed v2 s identity) := by
  simp only [resetServed, flattenLeft, strikeState_flatten, resetPreservedLastDaa_flatten,
    ← flatten_insert_strikes]
  split <;> rfl

/-- A burn commutes with flattening. -/
theorem burn_flatten (penalty : ServicePenalty) :
    b.flatten.burn miner penalty = flattenLeft (b.burn miner penalty) := by
  simp only [burn, vault_flatten]
  cases b.vault.get? miner <;> rfl

/-- A strike commutes with flattening. -/
theorem strike_flatten (est : Hash → Bool) (rh : Hash) (s : BondBook × List ServiceMiss) :
    strike daa v2 est rh (flattenLeft s) miner = flattenLeft (strike daa v2 est rh s miner) := by
  simp only [strike, flattenLeft, rateLimited_flatten, consecutiveMisses_flatten,
    ← flatten_insert_strikes, burn_flatten]
  by_cases hr : s.1.rateLimited daa miner
  · simp only [if_pos hr]
  · simp only [if_neg hr]
    split <;> rfl

/-- Settling a trace commutes with flattening. -/
theorem settle_flatten (est : Hash → Bool) (t : BookTrace) :
    b.flatten.settle daa v2 est t = flattenLeft (b.settle daa v2 est t) := by
  have hreset : ∀ l s, resetAll v2 l (flattenLeft s) = flattenLeft (resetAll v2 l s) :=
    fun l s => List.foldl_hom _ (resetServed_flatten v2)
  have hstrike : ∀ l s,
      strikeAll daa v2 est l (flattenLeft s) = flattenLeft (strikeAll daa v2 est l s) :=
    fun l s => List.foldl_hom _ fun s p => strike_flatten p.2 daa v2 est p.1 s
  have hserved := hreset t.credits (b, [])
  have hstruck := hstrike t.closings ((resetAll v2 t.credits (b, [])).1, [])
  simp only [flattenLeft] at hreset hserved hstruck
  simp only [settle, flattenLeft, hserved, hstruck]
  rw [hreset t.armCredits (_, _)]

end BondBook

namespace ServiceLedger

/-- The ledger with its baselines folded into their deltas. -/
def flatten (L : ServiceLedger) : ServiceLedger :=
  { L with toBondBook := L.toBondBook.flatten }

/-- Restoring an image installs the flattened ledger. -/
theorem restoreSnapshot_snapshot {L M : ServiceLedger}
    (hc : M.toLedgerConfig = L.toLedgerConfig) :
    M.restoreSnapshot L.snapshot = L.flatten := by
  simp only [restoreSnapshot, hc]
  rfl

/-- Flattening does not change the image. -/
@[simp] theorem snapshot_flatten (L : ServiceLedger) : L.flatten.snapshot = L.snapshot := by
  simp only [snapshot, flatten, BondBook.flatten, overlay_empty_left]

/-- A fold of the flattened ledger is the flattened fold, with the same outcome. -/
theorem foldInner_flatten (L : ServiceLedger) (i : FoldInput)
    (warmupBurned : Option (TransactionOutpoint → Bool)) (est : Hash → Bool)
    (cohort : ℕ → List (Hash × Hash)) :
    L.flatten.foldInner i warmupBurned est cohort
      = ((L.foldInner i warmupBurned est cohort).1.flatten,
          (L.foldInner i warmupBurned est cohort).2) := by
  cases warmupBurned with
  | none =>
    rw [foldInner_normal, foldInner_normal]
    simp only [flatten, openBlock_flatten, flattenLeft, settle_flatten]
  | some isBurned =>
    rw [foldInner_warmup, foldInner_warmup]
    simp only [flatten, openBlock_flatten, flattenLeft]

end ServiceLedger

end KeryxNode
