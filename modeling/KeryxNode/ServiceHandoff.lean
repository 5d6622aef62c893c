import KeryxNode.BootReload
import KeryxNode.CoinAge
import KeryxNode.ErrorChain

/-!
# Handing the Service State to a Syncing Peer

A node that syncs from a pruning point cannot re-derive the service-bond rows below it and takes
them from its peer: the server ships the canonical bytes of its rows
(`get_service_state_rows`), the syncing side accumulates those at or below the pruning point and
compares the digest with what the headers commit to (`sync_service_state`), then imports them
(`import_service_state`). The bytes are written in one place and taken apart in two others, by
offsets.

## Main results

* `service_handoff_faithful`: the whole transfer.
-/

namespace KeryxNode

open ByteCodec StoreWrite List

variable {w : StoreWrite}

/-! ### The server -/

/-- Errors of the two calls. -/
inductive ConsensusError where
  | headerNotFound (h : Hash)
  | general (message : String)
  deriving DecidableEq

/-- The rows of the stores up to the handoff ceiling above the pruning point. -/
def ServiceStores.getServiceStateRows (s : ServiceStores) (headerDaa : Hash → Option ℕ)
    (pruningPoint : Hash) (handoffDaa : ℕ) : Except ConsensusError (List (List UInt8)) :=
  match headerDaa pruningPoint with
  | none => .error (.headerNotFound pruningPoint)
  | some ppDaa =>
    let cutoff := min (ppDaa + handoffDaa) u64Max
    .ok ((s.rows.filter fun w => decide (w.daa ≤ cutoff)).map rowBytes)

/-! ### The importer -/

/-- The hash 32 bytes spell. -/
def hashOfSlice (bytes : List UInt8) : Hash :=
  Fin.ofNat (2 ^ 256) (beValue bytes)

/-- The error of a row of no known layout. -/
def malformedRow : ConsensusError :=
  .general "malformed service-state row"

/-- Parses a row. A zero version with an empty script is a reward that stayed burned. -/
def parseRow (row : List UInt8) : Except ConsensusError StoreWrite :=
  if row.head? = some 0x01 ∧ row.length = 45 then
    .ok (.burn ⟨hashOfSlice (slice row 1 33), leValue (slice row 33 37)⟩
      (leValue (slice row 37 45)))
  else if row.head? = some 0x02 ∧ row.length = 53 then
    .ok (.strike (leValue (slice row 1 9)) (hashOfSlice (slice row 9 41))
      ⟨leValue (slice row 41 45), leValue (slice row 45 53)⟩)
  else if row.head? = some 0x03 ∧ row.length = 41 then
    .ok (.firstSeen (hashOfSlice (slice row 1 33)) (leValue (slice row 33 41)))
  else if row.head? = some 0x04 ∧ 85 ≤ row.length then
    let version := leValue (slice row 81 83)
    let scriptLen := leValue (slice row 83 85)
    if row.length ≠ 85 + scriptLen then .error malformedRow
    else
      let spk := if 0 < scriptLen ∨ version ≠ 0 then
        some ⟨version, slice row 85 (85 + scriptLen)⟩ else none
      .ok (.reward (hashOfSlice (slice row 1 33))
        ⟨hashOfSlice (slice row 33 65), leValue (slice row 65 73), leValue (slice row 73 81), spk⟩)
  else .error malformedRow

/-- Parses every row before it writes one, then reloads the mirrors. -/
def importServiceState (N : Network) (stores : ServiceStores) (ownPp : Hash)
    (rows : List (List UInt8)) :
    Except ConsensusError (ServiceStores × ServiceMirrors × ℕ) := do
  let parsed ← rows.mapM parseRow
  let imported := stores.writeAll parsed
  return (imported, loadServiceBurned N imported ownPp)

/-! ### The syncing peer -/

/-- The event score of a row, `none` for a malformed one. -/
def serviceRowDaa (row : List UInt8) : Option ℕ :=
  if row.head? = some 0x01 ∧ row.length = 45 then some (leValue (slice row 37 45))
  else if row.head? = some 0x02 ∧ row.length = 53 then some (leValue (slice row 1 9))
  else if row.head? = some 0x03 ∧ row.length = 41 then some (leValue (slice row 33 41))
  else if row.head? = some 0x04 ∧ 85 ≤ row.length then some (leValue (slice row 73 81))
  else none

/-- What the peer has received: all rows, and the accumulators over those at or below the
pruning point and at or below the checkpoint. -/
structure ReceivedRows where
  rows : List (List UInt8) := []
  prefixRows : ℕ := 0
  acc : Multiset (List UInt8) := 0
  checkpointRows : ℕ := 0
  checkpointAcc : Multiset (List UInt8) := 0

/-- Takes one row of a chunk. -/
def ReceivedRows.receive (ppDaa handoffCutoff : ℕ) (checkpoint : Option ℕ) (r : ReceivedRows)
    (row : List UInt8) : Except String ReceivedRows :=
  match serviceRowDaa row with
  | none => .error "malformed service-state row"
  | some daa =>
    if handoffCutoff < daa then .error "service-state row beyond the handoff ceiling"
    else
      let inPrefix := decide (daa ≤ ppDaa)
      let inCheckpoint := inPrefix && checkpoint.any fun cpDaa => decide (daa ≤ cpDaa)
      .ok {
        rows := r.rows ++ [row]
        prefixRows := if inPrefix then r.prefixRows + 1 else r.prefixRows
        acc := if inPrefix then row ::ₘ r.acc else r.acc
        checkpointRows := if inCheckpoint then r.checkpointRows + 1 else r.checkpointRows
        checkpointAcc := if inCheckpoint then row ::ₘ r.checkpointAcc else r.checkpointAcc }

/-- Takes the rows of all chunks. -/
def receiveRows (ppDaa handoffDaa : ℕ) (checkpoint : Option ℕ) (rows : List (List UInt8)) :
    Except String ReceivedRows :=
  rows.foldlM (ReceivedRows.receive ppDaa (min (ppDaa + handoffDaa) u64Max) checkpoint) {}

/-- The digest of the rows at or below the pruning point, the zero hash if there is none. -/
def ReceivedRows.computed (finalize : Multiset (List UInt8) → Hash) (r : ReceivedRows) : Hash :=
  if r.prefixRows = 0 then zeroHash else finalize r.acc

/-! ### Rows and bytes -/

/-- The numbers of a row are in the range of their fields, and a payout script is not empty and
has less than `2 ^ 16` bytes. -/
def StoreWrite.Fits : StoreWrite → Prop
  | burn o daa => o.index < 2 ^ 32 ∧ daa < 2 ^ 64
  | strike daa _ e => daa < 2 ^ 64 ∧ e.count < 2 ^ 32 ∧ e.lastDaa < 2 ^ 64
  | firstSeen _ daa => daa < 2 ^ 64
  | reward _ e => e.amount < 2 ^ 64 ∧ e.daa < 2 ^ 64 ∧
      ∀ spk ∈ e.spk, spk.version < 2 ^ 16 ∧ spk.script ≠ [] ∧ spk.script.length < 2 ^ 16

instance : DecidablePred StoreWrite.Fits
  | .burn _ _ => inferInstanceAs (Decidable (_ ∧ _))
  | .strike _ _ _ => inferInstanceAs (Decidable (_ ∧ _ ∧ _))
  | .firstSeen _ _ => inferInstanceAs (Decidable (_ < _))
  | .reward _ _ => inferInstanceAs (Decidable (_ ∧ _ ∧ ∀ spk ∈ _, _ ∧ _ ∧ _))

@[simp] theorem length_hashBytes (h : Hash) : (hashBytes h).length = 32 :=
  length_beBytes 32 h.val

@[simp] theorem hashOfSlice_hashBytes (h : Hash) : hashOfSlice (hashBytes h) = h := by
  have hlt : h.val < 256 ^ 32 := lt_of_lt_of_eq h.isLt (by norm_num)
  rw [hashOfSlice, hashBytes, beValue_beBytes, Nat.mod_eq_of_lt hlt]
  exact Fin.ext (Nat.mod_eq_of_lt h.isLt)

theorem leValue_leBytes_of_lt {w n : ℕ} (h : n < 2 ^ (8 * w)) : leValue (leBytes w n) = n := by
  rw [leValue_leBytes, Nat.mod_eq_of_lt (pow_mul 2 8 w ▸ h)]

/-- The importer reads back what the server wrote. -/
theorem parseRow_rowBytes (h : w.Fits) : parseRow w.rowBytes = .ok w := by
  cases w with
  | burn o daa =>
    obtain ⟨hindex, hdaa⟩ := h
    rw [parseRow]
    simp [rowBytes, leValue_leBytes_of_lt (w := 4) hindex, leValue_leBytes_of_lt (w := 8) hdaa]
  | strike daa miner e =>
    obtain ⟨hdaa, hcount, hlast⟩ := h
    rw [parseRow, if_neg (by simp [rowBytes])]
    simp [rowBytes, leValue_leBytes_of_lt (w := 4) hcount,
      leValue_leBytes_of_lt (w := 8) hdaa, leValue_leBytes_of_lt (w := 8) hlast]
  | firstSeen miner daa =>
    rw [parseRow, if_neg (by simp [rowBytes]), if_neg (by simp [rowBytes])]
    simp [rowBytes, leValue_leBytes_of_lt (w := 8) h]
  | reward rh e =>
    obtain ⟨winner, amount, daa, spk⟩ := e
    obtain ⟨hamount, hdaa, hspk⟩ := h
    set head := 0x04 :: hashBytes rh ++ hashBytes winner ++ leBytes 8 amount ++ leBytes 8 daa
      with hhead
    -- A reward that stayed burned is written as one to an empty script.
    obtain ⟨v, s, hv, hs, hrow, hspk'⟩ : ∃ v s, v < 2 ^ 16 ∧ s.length < 2 ^ 16 ∧
        (reward rh ⟨winner, amount, daa, spk⟩).rowBytes
          = head ++ leBytes 2 v ++ leBytes 2 s.length ++ s ∧
        (if 0 < s.length ∨ v ≠ 0 then some ⟨v, s⟩ else none) = spk := by
      cases spk with
      | none => exact ⟨0, [], by decide, by decide, by simp [rowBytes, hhead], rfl⟩
      | some s =>
        obtain ⟨hv, hne, hs⟩ := hspk s rfl
        exact ⟨s.version, s.script, hv, hs, by simp [rowBytes, hhead],
          if_pos (.inl (length_pos_iff.mpr hne))⟩
    have hlen : 32 + (32 + (8 + (8 + (2 + (2 + s.length))))) = s.length + 84 := by omega
    rw [hrow, parseRow, if_neg (by simp [hhead]), if_neg (by simp [hhead]),
      if_neg (by simp [hhead])]
    simp [hhead, leValue_leBytes_of_lt (w := 8) hamount, leValue_leBytes_of_lt (w := 8) hdaa,
      leValue_leBytes_of_lt (w := 2) hv, leValue_leBytes_of_lt (w := 2) hs, hlen, ← hspk',
      Nat.add_comm 85]

/-- The syncing peer reads the event score of every row. -/
theorem serviceRowDaa_rowBytes (h : w.Fits) :
    serviceRowDaa w.rowBytes = some w.daa := by
  cases w with
  | burn o daa =>
    simp [serviceRowDaa, StoreWrite.rowBytes, StoreWrite.daa, leValue_leBytes_of_lt (w := 8) h.2]
  | strike daa miner e =>
    simp [serviceRowDaa, StoreWrite.rowBytes, StoreWrite.daa, leValue_leBytes_of_lt (w := 8) h.1]
  | firstSeen miner daa =>
    simp [serviceRowDaa, StoreWrite.rowBytes, StoreWrite.daa, leValue_leBytes_of_lt (w := 8) h]
  | reward rh e =>
    have hlen : 85 ≤ (reward rh e).rowBytes.length := by
      simp only [rowBytes, length_append, length_cons, length_hashBytes]
      split <;> simp only [length_append, length_leBytes] <;> omega
    have hdaa : leValue (slice (reward rh e).rowBytes 73 81) = e.daa := by
      simp [rowBytes, leValue_leBytes_of_lt (w := 8) h.2.1]
    rw [serviceRowDaa, if_neg (by simp [rowBytes]),
      if_neg (by simp [rowBytes]), if_neg (by simp [rowBytes]),
      if_pos ⟨rfl, hlen⟩, hdaa]
    rfl

theorem StoreWrite.Fits.daa_lt (h : w.Fits) : w.daa < 2 ^ 64 := by
  cases w with
  | burn o daa => exact h.2
  | strike daa miner e => exact h.1
  | firstSeen miner daa => exact h
  | reward rh e => exact h.2.1

/-! ### Importing -/

theorem mapM_parseRow {ws : List StoreWrite} (h : ∀ w ∈ ws, w.Fits) :
    (ws.map rowBytes).mapM parseRow = .ok ws := by
  rw [mapM_eq_ok, forall₂_map_left_iff, forall₂_same]
  exact fun w hw => parseRow_rowBytes (h w hw)

/-- The rows of one store, written in key order, overlay that store. -/
theorem foldl_write {K V : Type} [LinearOrder K] (row : K × V → StoreWrite)
    (put : OrdMap K V → ServiceStores) (h : ∀ m e, (put m).write (row e) = put (m.insert e.1 e.2))
    (base rows : OrdMap K V) :
    (rows.entries.map row).foldl ServiceStores.write (put base) = put (base.overlay rows) := by
  rw [foldl_map]
  exact foldl_hom put h

/-- The rows of the stores, written into empty ones, give the stores back. -/
theorem ServiceStores.writeAll_rows (s : ServiceStores) :
    ({} : ServiceStores).writeAll s.rows = { s with ledgerSnapshot := .empty } := by
  rw [writeAll, rows, foldl_append, foldl_append, foldl_append,
    foldl_write (fun e => .burn e.1 e.2) (fun m => { burn := m }) (fun _ _ => rfl) .empty s.burn,
    foldl_write (fun e => .strike (ofLex e.1).1 (ofLex e.1).2 e.2)
      (fun m => { burn := _, strike := m }) (fun _ _ => rfl) .empty s.strike,
    foldl_write (fun e => .firstSeen e.1 e.2)
      (fun m => { burn := _, strike := _, firstSeen := m }) (fun _ _ => rfl) .empty s.firstSeen,
    foldl_write (fun e => .reward e.1 e.2)
      (fun m => { burn := _, strike := _, firstSeen := _, reward := m }) (fun _ _ => rfl) .empty
      s.reward]
  simp only [OrdMap.overlay_empty_left]

/-! ### Receiving -/

/-- **What the peer has received**, row by row: the accumulator holds the rows at or below the
pruning point. -/
theorem foldlM_receive {ppDaa handoffCutoff : ℕ} {checkpoint : Option ℕ} {ws : List StoreWrite}
    (hfits : ∀ w ∈ ws, w.Fits) (hcut : ∀ w ∈ ws, w.daa ≤ handoffCutoff) :
    ∃ r, (ws.map rowBytes).foldlM (ReceivedRows.receive ppDaa handoffCutoff checkpoint) {} = .ok r ∧
      r.rows = ws.map rowBytes ∧
      r.prefixRows = (ws.filter fun w => decide (w.daa ≤ ppDaa)).length ∧
      r.acc = ((ws.filter fun w => decide (w.daa ≤ ppDaa)).map rowBytes : List (List UInt8)) := by
  induction ws using reverseRecOn with
  | nil => exact ⟨{}, rfl, rfl, rfl, rfl⟩
  | append_singleton ws w ih =>
    rw [forall_mem_append, forall_mem_singleton] at hfits hcut
    obtain ⟨r, hr, hrows, hcount, hacc⟩ := ih hfits.1 hcut.1
    rw [map_append, foldlM_append, hr]
    simp only [map_cons, map_nil, foldlM_cons, foldlM_nil, ReceivedRows.receive,
      serviceRowDaa_rowBytes hfits.2, if_neg hcut.2.not_gt]
    refine ⟨_, rfl, congrArg (· ++ [w.rowBytes]) hrows, ?_, ?_⟩
    · rw [filter_append, length_append, ← hcount]
      by_cases hle : w.daa ≤ ppDaa <;> simp [hle]
    · rw [filter_append, map_append, ← Multiset.coe_add, ← hacc, Multiset.add_comm]
      by_cases hle : w.daa ≤ ppDaa <;> simp [hle]

/-- The commitment of the rows of the stores. -/
theorem commitmentOf_sealable (finalize : Multiset (List UInt8) → Hash) (s : ServiceStores)
    (d : ℕ) :
    let below := s.rows.filter fun w => decide (w.daa ≤ d)
    ServiceCommitIndex.commitmentOf finalize s.sealable d
      = if below = [] then zeroHash
        else finalize (below.map rowBytes : List (List UInt8)) := by
  intro below
  have hbelow : s.sealable.filter (fun r => r.1 ≤ d)
      = (below.map fun w => (w.daa, w.rowBytes) : List (ℕ × List UInt8)) := by
    rw [ServiceStores.sealable, Multiset.filter_coe, filter_map]
    rfl
  simp only [ServiceCommitIndex.commitmentOf, hbelow, Multiset.coe_eq_zero, map_eq_nil_iff,
    Multiset.map_coe, map_map]
  rfl

/-- **The handoff is faithful.** With an unbounded handoff every row is shipped; imported into
empty stores they give the four stores back, and the digest the peer accumulates over the rows at
or below the pruning point is the commitment of the server there. -/
theorem service_handoff_faithful (N : Network) (s : ServiceStores) (hs : ∀ w ∈ s.rows, w.Fits)
    (headerDaa : Hash → Option ℕ) (pruningPoint : Hash) (ppDaa : ℕ)
    (hpp : headerDaa pruningPoint = some ppDaa) (ownPp ownPp' : Hash) (checkpoint : Option ℕ) :
    let imported := { s with ledgerSnapshot := .empty }
    ∃ rows, s.getServiceStateRows headerDaa pruningPoint u64Max = .ok rows ∧
      importServiceState N {} ownPp' rows
        = .ok (imported, loadServiceBurned N imported ownPp') ∧
      ∃ r, receiveRows ppDaa u64Max checkpoint rows = .ok r ∧ r.rows = rows ∧
        r.computed N.finalize = (loadServiceBurned N s ownPp).1.commit.commitmentAt ppDaa := by
  have hcutoff : ∀ w ∈ s.rows, w.daa ≤ min (ppDaa + u64Max) u64Max := by
    intro w hw
    have hlt := (hs w hw).daa_lt
    rw [u64Max]
    omega
  have hall : s.rows.filter (fun w => decide (w.daa ≤ min (ppDaa + u64Max) u64Max)) = s.rows :=
    filter_eq_self.mpr fun w hw => decide_eq_true (hcutoff w hw)
  refine ⟨s.rows.map rowBytes, ?_, ?_, ?_⟩
  · rw [ServiceStores.getServiceStateRows, hpp]
    simp only [hall]
  · rw [importServiceState, mapM_parseRow hs]
    exact congrArg (fun t => Except.ok (t, loadServiceBurned N t ownPp')) s.writeAll_rows
  · obtain ⟨r, hr, hrows, hcount, hacc⟩ := foldlM_receive hs hcutoff
    refine ⟨r, hr, hrows, ?_⟩
    rw [(sealed_loadServiceBurned N s ownPp).1.answers ppDaa fun _ ht => (by cases ht),
      commitmentOf_sealable, ReceivedRows.computed, hcount, hacc]
    simp only [length_eq_zero_iff]

/-- Stores with a row of each kind, rewards with and without a payout script, on both sides of a
pruning point of score 10. -/
def sampleStores : ServiceStores :=
  ({} : ServiceStores).writeAll [.burn ⟨7, 1⟩ 9, .strike 10 3 ⟨2, 10⟩, .firstSeen 3 4,
    .reward 5 ⟨3, 600, 8, some ⟨0, [172]⟩⟩, .reward 6 ⟨3, 600, 12, none⟩]

/-- A burn, a strike, a first sighting and two rewards reach an empty node as they are, and the
digest of the rows is the commitment the sender had. -/
theorem service_handoff_faithful_sample :
    let N := Network.ofBlocks testnetParams []
    let imported := { sampleStores with ledgerSnapshot := .empty }
    ∃ rows, sampleStores.getServiceStateRows (fun _ => some 10) 2 u64Max = .ok rows ∧
      importServiceState N {} 2 rows = .ok (imported, loadServiceBurned N imported 2) ∧
      ∃ r, receiveRows 10 u64Max (some 4) rows = .ok r ∧ r.rows = rows ∧
        r.computed N.finalize = (loadServiceBurned N sampleStores 1).1.commit.commitmentAt 10 :=
  service_handoff_faithful _ sampleStores (by decide) _ 2 10 rfl 1 2 (some 4)

end KeryxNode
