import KeryxNode.SnapshotCodec
import KeryxNode.VaultUndo

/-!
# Snapshot Transfer

A syncing peer does not replay history: it receives the bytes of a ledger image, parses them
and folds on from there. Sender and receiver then hold different representations of one
state — the sender a delta over persisted baselines, the receiver a merged delta over empty
ones — and must agree on every later block.

## Main results

* `snapshot_transfer`: an image that fits the encoding transfers the behaviour of its ledger.
* `snapshot_transfer_longScript`: the `u16` script length is a real bound. A ledger that
  recorded a payout script of 65536 bytes encodes to bytes its own parser refuses.
-/

namespace KeryxNode

open List OrdMap

/-! ### Runs of folds -/

namespace ServiceLedger

/-- A run of the flattened ledger is the flattened run, with the same outcomes. -/
theorem run_flatten (L : ServiceLedger) (calls : List FoldCall) :
    L.flatten.run calls = ((L.run calls).1.flatten, (L.run calls).2) := by
  induction calls generalizing L with
  | nil => rfl
  | cons call calls ih =>
    have hfold : L.flatten.fold call = ((L.fold call).1.flatten, (L.fold call).2) :=
      foldInner_flatten L call.input none call.isEstablished call.cohort
    simp only [run, hfold, ih]

/-- Ledgers the folds reach from a fresh ledger over any baselines. -/
inductive Reachable : ServiceLedger → Prop
  | fresh (c : LedgerConfig) (base : OrdMap Hash StrikeEntry) (seen : OrdMap Hash ℕ) :
      Reachable { toLedgerConfig := c, base := base, firstSeenBase := seen }
  | configure {L : ServiceLedger} (h : Reachable L) (c : LedgerConfig) :
      Reachable (L.configure c)
  | fold {L : ServiceLedger} (h : Reachable L) (call : FoldCall) : Reachable (L.fold call).1
  | warmup {L : ServiceLedger} (h : Reachable L) (i : FoldInput)
      (isBurned : TransactionOutpoint → Bool) (cohort : ℕ → List (Hash × Hash)) :
      Reachable (L.onChainBlockWarmupWithRewards i isBurned cohort)

/-- No reachable ledger has an empty deque. -/
theorem tidy_of_reachable {L : ServiceLedger} (h : L.Reachable) : BondBook.Tidy L.vault := by
  induction h with
  | fresh c base seen => exact fun _ hm => by simp at hm
  | configure _ c ih => exact ih
  | fold _ call _ => exact tidy_foldInner _ _ _ _ _
  | warmup _ i isBurned cohort _ => exact tidy_foldInner _ _ _ _ _

end ServiceLedger

open ServiceLedger ServiceLedgerSnapshot

/-! ### The transfer -/

/-- **Snapshot transfer**: the image of a reachable ledger that fits the encoding is parsed
back, and from then on sender and receiver return the same outcomes and keep the same
image. -/
theorem snapshot_transfer {L M : ServiceLedger} (hL : L.Reachable)
    (hM : M.toLedgerConfig = L.toLedgerConfig) (hfits : L.snapshot.Fits) :
    ∃ s, fromBytes L.snapshot.toBytes = .ok s ∧ ∀ calls : List FoldCall,
      ((M.restoreSnapshot s).run calls).2 = (L.run calls).2 ∧
      ((M.restoreSnapshot s).run calls).1.snapshot = (L.run calls).1.snapshot := by
  refine ⟨L.snapshot, fromBytes_toBytes hfits (tidy_of_reachable hL), fun calls => ?_⟩
  rw [restoreSnapshot_snapshot hM, run_flatten]
  exact ⟨rfl, snapshot_flatten _⟩

/-- A block whose only content is the payout script of one producer. -/
def producerCall (daa : ℕ) (identity : Hash) (spk : ScriptPublicKey) : FoldCall :=
  { input := { daa, producers := [(identity, spk)] }
    isEstablished := fun _ => true, cohort := fun _ => [] }

/-- The image of a ledger that recorded one payout script. -/
def spkImage (identity : Hash) (spk : ScriptPublicKey) : ServiceLedgerSnapshot :=
  { producerSpk := empty.insert identity spk }

theorem snapshot_producerCall (daa : ℕ) (identity : Hash) (spk : ScriptPublicKey) :
    (({} : ServiceLedger).fold (producerCall daa identity spk)).1.snapshot
      = spkImage identity spk := rfl

/-- An image of one short script fits. -/
theorem fits_spkImage {identity : Hash} {spk : ScriptPublicKey} (hv : spk.version < 2 ^ 16)
    (hs : spk.script.length < 2 ^ 16) : (spkImage identity spk).Fits := by
  have hspk : ∀ e ∈ (spkImage identity spk).producerSpk.entries,
      e.2.version < 2 ^ 16 ∧ e.2.script.length < 2 ^ 16 := by
    intro e he
    obtain rfl : e = (identity, spk) := mem_singleton.mp he
    exact ⟨hv, hs⟩
  have hone : (1 : ℕ) < 2 ^ 32 := by decide
  have hzero : (0 : ℕ) < 2 ^ 32 := by decide
  have hnil : ∀ {α : Type} {P : α → Prop}, ∀ a ∈ ([] : List α), P a :=
    fun a ha => absurd ha not_mem_nil
  constructor <;> first | exact hspk | exact hzero | exact hone | exact hnil

/-- Miner 5 leaves the first of two requests unanswered; the second one is still open. -/
def auditedCalls : List FoldCall :=
  [(10, [(1, 1, 1)], [(5, ⟨⟨1, 0⟩, 100, 10⟩), (6, ⟨⟨2, 0⟩, 100, 10⟩)]), (11, [], []),
    (320, [(2, 1, 1)], []), (321, [], [])].map fun (daa, requests, escrows) =>
    { input := { daa, requests, escrows, producers := [(7, ⟨0, [172]⟩)] }
      isEstablished := fun _ => true, cohort := fun _ => [(5, 50)] }

/-- The ledger after these blocks, over a persisted strike of miner 6. -/
def auditedLedger : ServiceLedger :=
  (ServiceLedger.run { base := empty.insert 6 ⟨1, 3⟩, firstSeenBase := empty.insert 5 2 }
    auditedCalls).1

theorem reachable_auditedLedger : auditedLedger.Reachable :=
  ((((Reachable.fresh {} (empty.insert 6 ⟨1, 3⟩) (empty.insert 5 2)).fold _).fold _).fold _).fold _

theorem vault_auditedLedger : auditedLedger.vault.entries = [(6, [⟨⟨2, 0⟩, 100, 10⟩])] := by
  decide +kernel

theorem pending_auditedLedger : auditedLedger.pending.entries
    = [(2, ⟨1, 1, 320, 0, none, some ⟨[5], [(50, 5)], [], 623⟩, []⟩)] := by
  decide +kernel

theorem fits_auditedLedger : auditedLedger.snapshot.Fits := by
  constructor
  case vault =>
    refine vault_auditedLedger ▸ forall_mem_singleton.mpr ⟨by decide, ?_⟩
    exact forall_mem_singleton.mpr ⟨by decide, by decide, by decide⟩
  case pending =>
    refine pending_auditedLedger ▸ forall_mem_singleton.mpr
      ⟨by decide, by decide, by decide, by decide, fun a ha => ?_, by decide⟩
    cases ha
    exact ⟨by decide, by decide, by decide, by decide⟩
  all_goals decide +kernel

/-- The image has a vault, a pending audit and the strikes of both miners. -/
theorem snapshot_codec_bijective_audited :
    auditedLedger.snapshot.strikes.entries = [(5, ⟨1, 320⟩), (6, ⟨1, 3⟩)] ∧
      fromBytes auditedLedger.snapshot.toBytes = .ok auditedLedger.snapshot :=
  ⟨by decide +kernel, snapshot_codec_bijective.1 _ fits_auditedLedger
    (tidy_of_reachable reachable_auditedLedger)⟩

/-- The receiver has no baselines, so its ledger is another one, and yet it goes on alike. -/
theorem snapshot_transfer_audited :
    ∃ s, fromBytes auditedLedger.snapshot.toBytes = .ok s ∧
      auditedLedger.base.entries = [(6, ⟨1, 3⟩)] ∧
      (({} : ServiceLedger).restoreSnapshot s).base.entries = [] ∧ ∀ calls : List FoldCall,
      ((({} : ServiceLedger).restoreSnapshot s).run calls).2 = (auditedLedger.run calls).2 ∧
      ((({} : ServiceLedger).restoreSnapshot s).run calls).1.snapshot
        = (auditedLedger.run calls).1.snapshot := by
  obtain ⟨s, hs, hruns⟩ :=
    snapshot_transfer (M := {}) reachable_auditedLedger rfl fits_auditedLedger
  exact ⟨s, hs, by decide +kernel, rfl, hruns⟩

/-- The length field of a script wraps at 65536: a script of that many zero bytes encodes
like the empty one, with its bytes left over at the end. -/
theorem toBytes_spkImage_wrap (identity : Hash) :
    (spkImage identity ⟨0, replicate 65536 0⟩).toBytes
      = (spkImage identity ⟨0, []⟩).toBytes ++ List.replicate 65536 0 := by
  have hwrap : ByteCodec.leBytes 2 65536 = ByteCodec.leBytes 2 0 := rfl
  have hcount : ByteCodec.leBytes 4 0 = replicate 4 0 := rfl
  simp only [toBytes, spkImage, OrdMap.insert, OrdMap.insertEntry, OrdMap.empty,
    ByteCodec.putCounted, spkEntryBytes, flatMap_cons, flatMap_nil, append_assoc,
    append_nil, length_cons, length_nil, length_replicate,
    hwrap, hcount, replicate_append_replicate]

/-- **The script length is a real bound**: a ledger that folded one block whose producer pays
to a script of 65536 bytes encodes to bytes its own parser refuses. -/
theorem snapshot_transfer_longScript :
    let L := (({} : ServiceLedger).fold (producerCall 1 7 ⟨0, replicate 65536 0⟩)).1
    L.Reachable ∧ fromBytes L.snapshot.toBytes = .error "trailing bytes" := by
  refine ⟨(Reachable.fresh {} .empty .empty).fold _, ?_⟩
  rw [snapshot_producerCall, toBytes_spkImage_wrap]
  have hrest : replicate 65536 (0 : UInt8) ≠ [] := by
    intro h
    have hlen := congrArg length h
    rw [length_replicate] at hlen
    exact absurd hlen (by decide)
  exact fromBytes_trailing (fits_spkImage (by decide) (by decide))
    (fun _ h => by simp [spkImage] at h) hrest

end KeryxNode
