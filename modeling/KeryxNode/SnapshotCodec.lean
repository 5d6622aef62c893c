import KeryxNode.ByteCodec
import KeryxNode.LedgerSnapshot

/-!
# The Byte Form of a Ledger Snapshot

`toBytes` is the canonical encoding of a `ServiceLedgerSnapshot`, the input of its digest and
the unit of the sync transfer; `fromBytes` parses it and rejects malformed, unordered or
trailing data. Counts are written as `u32` and script lengths as `u16`, so an image is
faithful only below those widths: `Fits` collects the bounds, each one a bound on the image
that is encoded.
-/

namespace KeryxNode

open ByteCodec

/-! ### Fields -/

/-- The 32 bytes of a hash. -/
def hashBytes (h : Hash) : List UInt8 :=
  beBytes 32 h.val

/-- Reads a hash. -/
def readHash : Decoder Hash := do
  return Fin.ofNat (2 ^ 256) (← readBe 32)

theorem reads_hash (h : Hash) : Reads readHash (hashBytes h) h :=
  (reads_be h.isLt).last (by
    apply Fin.ext
    exact Nat.mod_eq_of_lt h.isLt)

/-- A pair of hashes. -/
def pairBytes (p : Hash × Hash) : List UInt8 :=
  hashBytes p.1 ++ hashBytes p.2

/-- Reads a pair of hashes. -/
def readPair : Decoder (Hash × Hash) := do
  let a ← readHash
  let b ← readHash
  return (a, b)

theorem reads_pair (p : Hash × Hash) : Reads readPair (pairBytes p) p :=
  (reads_hash p.1).bind ((reads_hash p.2).last rfl)

/-- A list of hashes behind its count. -/
def putHashes (l : List Hash) : List UInt8 :=
  putCounted hashBytes l

/-- Reads a list of hashes. -/
def readHashes : Decoder (List Hash) :=
  counted readHash

theorem reads_hashes {l : List Hash} (h : l.length < 2 ^ 32) : Reads readHashes (putHashes l) l :=
  reads_counted h fun a _ => reads_hash a

/-! ### Vault entries -/

namespace EscrowClaim

/-- The numbers of a claim are in the range of their fields. -/
structure Fits (c : EscrowClaim) : Prop where
  index : c.outpoint.index < 2 ^ 32
  value : c.value < 2 ^ 64
  daa : c.daa < 2 ^ 64

/-- One claim. -/
def bytes (c : EscrowClaim) : List UInt8 :=
  hashBytes c.outpoint.transactionId ++
    (leBytes 4 c.outpoint.index ++ (leBytes 8 c.value ++ leBytes 8 c.daa))

/-- Reads one claim. -/
def read : Decoder EscrowClaim := do
  let txid ← readHash
  let index ← readLe 4
  let value ← readLe 8
  let daa ← readLe 8
  return { outpoint := ⟨txid, index⟩, value, daa }

theorem reads {c : EscrowClaim} (h : c.Fits) : Reads read c.bytes c :=
  (reads_hash _).bind <| (reads_le h.index).bind <| (reads_le h.value).bind <|
    (reads_le h.daa).last rfl

end EscrowClaim

/-- One miner's deque. -/
def vaultEntryBytes (e : Hash × List EscrowClaim) : List UInt8 :=
  hashBytes e.1 ++ putCounted EscrowClaim.bytes e.2

/-- Reads one miner's deque. -/
def readVaultEntry : Decoder (Hash × List EscrowClaim) := do
  let miner ← readHash
  let claims ← counted EscrowClaim.read
  return (miner, claims)

theorem reads_vaultEntry {e : Hash × List EscrowClaim} (hlen : e.2.length < 2 ^ 32)
    (h : ∀ c ∈ e.2, c.Fits) : Reads readVaultEntry (vaultEntryBytes e) e :=
  (reads_hash _).bind <| (reads_counted hlen fun c hc => EscrowClaim.reads (h c hc)).last rfl

/-! ### Pending requests -/

namespace Audit

/-- The lists of an audit are countable in 32 bits and its score in 64. -/
structure Fits (a : Audit) : Prop where
  cohort : a.cohort.length < 2 ^ 32
  delegations : a.delegations.length < 2 ^ 32
  responded : a.responded.length < 2 ^ 32
  windowEndDaa : a.windowEndDaa < 2 ^ 64

/-- One audit. -/
def bytes (a : Audit) : List UInt8 :=
  putHashes a.cohort ++ (putCounted pairBytes a.delegations ++
    (putHashes a.responded ++ leBytes 8 a.windowEndDaa))

/-- Reads one audit. -/
def read : Decoder Audit := do
  let cohort ← readHashes
  let delegations ← counted readPair
  let responded ← readHashes
  let windowEndDaa ← readLe 8
  return { cohort, delegations, responded, windowEndDaa }

theorem reads {a : Audit} (h : a.Fits) : Reads read a.bytes a :=
  (reads_hashes h.cohort).bind <|
    (reads_counted h.delegations fun p _ => reads_pair p).bind <|
    (reads_hashes h.responded).bind <| (reads_le h.windowEndDaa).last rfl

end Audit

namespace PendingRequest

/-- The fields of a pending request are in range. -/
structure Fits (r : PendingRequest) : Prop where
  tier : r.tier < 2 ^ 8
  maxTokens : r.maxTokens < 2 ^ 32
  acceptedDaa : r.acceptedDaa < 2 ^ 64
  reward : r.reward < 2 ^ 64
  audit : ∀ a, r.audit = some a → a.Fits
  earlyResponders : r.earlyResponders.length < 2 ^ 32

/-- One pending request. -/
def bytes (r : PendingRequest) : List UInt8 :=
  leBytes 1 r.tier ++ (leBytes 4 r.maxTokens ++ (leBytes 8 r.acceptedDaa ++
    (leBytes 8 r.reward ++ (putOption hashBytes r.winner ++
      (putOption Audit.bytes r.audit ++ putHashes r.earlyResponders)))))

/-- Reads one pending request. -/
def read : Decoder PendingRequest := do
  let tier ← readLe 1
  let maxTokens ← readLe 4
  let acceptedDaa ← readLe 8
  let reward ← readLe 8
  let winner ← readOption "malformed winner" readHash
  let audit ← readOption "malformed audit" Audit.read
  let earlyResponders ← readHashes
  return { tier, maxTokens, acceptedDaa, reward, winner, audit, earlyResponders }

theorem reads {r : PendingRequest} (h : r.Fits) : Reads read r.bytes r :=
  (reads_le h.tier).bind <| (reads_le h.maxTokens).bind <| (reads_le h.acceptedDaa).bind <|
    (reads_le h.reward).bind <| (reads_option fun a _ => reads_hash a).bind <|
    (reads_option fun a ha => Audit.reads (h.audit a ha)).bind <|
    (reads_hashes h.earlyResponders).last rfl

end PendingRequest

/-- One pending request behind its hash. -/
def pendingEntryBytes (e : Hash × PendingRequest) : List UInt8 :=
  hashBytes e.1 ++ e.2.bytes

/-- Reads one pending request behind its hash. -/
def readPendingEntry : Decoder (Hash × PendingRequest) := do
  let rh ← readHash
  let req ← PendingRequest.read
  return (rh, req)

theorem reads_pendingEntry {e : Hash × PendingRequest} (h : e.2.Fits) :
    Reads readPendingEntry (pendingEntryBytes e) e :=
  (reads_hash _).bind <| (PendingRequest.reads h).last rfl

/-! ### Small maps -/

/-- One early response. -/
def earlyEntryBytes (e : Hash × (ℕ × List Hash)) : List UInt8 :=
  hashBytes e.1 ++ (leBytes 8 e.2.1 ++ putHashes e.2.2)

/-- Reads one early response. -/
def readEarlyEntry : Decoder (Hash × (ℕ × List Hash)) := do
  let rh ← readHash
  let seen ← readLe 8
  let keys ← readHashes
  return (rh, (seen, keys))

theorem reads_earlyEntry {e : Hash × (ℕ × List Hash)} (hs : e.2.1 < 2 ^ 64)
    (hk : e.2.2.length < 2 ^ 32) : Reads readEarlyEntry (earlyEntryBytes e) e :=
  (reads_hash _).bind <| (reads_le hs).bind <| (reads_hashes hk).last rfl

/-- One strike entry. -/
def strikeEntryBytes (e : Hash × StrikeEntry) : List UInt8 :=
  hashBytes e.1 ++ (leBytes 4 e.2.count ++ leBytes 8 e.2.lastDaa)

/-- Reads one strike entry. -/
def readStrikeEntry : Decoder (Hash × StrikeEntry) := do
  let miner ← readHash
  let count ← readLe 4
  let lastDaa ← readLe 8
  return (miner, { count, lastDaa })

theorem reads_strikeEntry {e : Hash × StrikeEntry} (hc : e.2.count < 2 ^ 32)
    (hd : e.2.lastDaa < 2 ^ 64) : Reads readStrikeEntry (strikeEntryBytes e) e :=
  (reads_hash _).bind <| (reads_le hc).bind <| (reads_le hd).last rfl

/-- One score under a hash: a first sighting or an admitted request. -/
def scoreEntryBytes (e : Hash × ℕ) : List UInt8 :=
  hashBytes e.1 ++ leBytes 8 e.2

/-- Reads one score under a hash. -/
def readScoreEntry : Decoder (Hash × ℕ) := do
  let key ← readHash
  let daa ← readLe 8
  return (key, daa)

theorem reads_scoreEntry {e : Hash × ℕ} (h : e.2 < 2 ^ 64) :
    Reads readScoreEntry (scoreEntryBytes e) e :=
  (reads_hash _).bind <| (reads_le h).last rfl

/-- One payout script. -/
def spkEntryBytes (e : Hash × ScriptPublicKey) : List UInt8 :=
  hashBytes e.1 ++ (leBytes 2 e.2.version ++ (leBytes 2 e.2.script.length ++ e.2.script))

/-- Reads one payout script. -/
def readSpkEntry : Decoder (Hash × ScriptPublicKey) := do
  let miner ← readHash
  let version ← readLe 2
  let len ← readLe 2
  let script ← take len
  return (miner, { version, script })

theorem reads_spkEntry {e : Hash × ScriptPublicKey} (hv : e.2.version < 2 ^ 16)
    (hs : e.2.script.length < 2 ^ 16) : Reads readSpkEntry (spkEntryBytes e) e :=
  (reads_hash _).bind <| (reads_le hv).bind <| (reads_le hs).bind <| (reads_take _).last rfl

/-- One recent producer. -/
def producerBytes (p : ℕ × Hash × ℕ × Hash) : List UInt8 :=
  leBytes 8 p.1 ++ (hashBytes p.2.1 ++ (leBytes 1 p.2.2.1 ++ hashBytes p.2.2.2))

/-- Reads one recent producer. -/
def readProducer : Decoder (ℕ × Hash × ℕ × Hash) := do
  let daa ← readLe 8
  let id ← readHash
  let tier ← readLe 1
  let escrow ← readHash
  return (daa, id, tier, escrow)

theorem reads_producer {p : ℕ × Hash × ℕ × Hash} (hd : p.1 < 2 ^ 64) (ht : p.2.2.1 < 2 ^ 8) :
    Reads readProducer (producerBytes p) p :=
  (reads_le hd).bind <| (reads_hash _).bind <| (reads_le ht).bind <| (reads_hash _).last rfl

/-! ### The image -/

/-- Version byte of the encoding. -/
def snapshotEncodingVersion : ℕ := 1

namespace ServiceLedgerSnapshot

variable {s : ServiceLedgerSnapshot}

/-- Canonical byte form. -/
def toBytes (s : ServiceLedgerSnapshot) : List UInt8 :=
  leBytes 1 snapshotEncodingVersion ++
    (putCounted vaultEntryBytes s.vault.entries ++
    (putCounted pendingEntryBytes s.pending.entries ++
    (putCounted earlyEntryBytes s.earlyResponses.entries ++
    (putCounted strikeEntryBytes s.strikes.entries ++
    (putCounted scoreEntryBytes s.firstSeen.entries ++
    (putCounted scoreEntryBytes s.audited.entries ++
    (putCounted spkEntryBytes s.producerSpk.entries ++
      putCounted producerBytes s.recentProducers)))))))

/-- Reads the sections of an image behind its version byte. -/
def readBody : Decoder ServiceLedgerSnapshot := do
  let vault ← readMap "malformed vault" readVaultEntry List.isEmpty
  let pending ← readMap "malformed pending" readPendingEntry fun _ => false
  let earlyResponses ← readMap "malformed early responses" readEarlyEntry fun _ => false
  let strikes ← readMap "malformed strikes" readStrikeEntry fun _ => false
  let firstSeen ← readMap "malformed first_seen" readScoreEntry fun _ => false
  let audited ← readMap "malformed audited" readScoreEntry fun _ => false
  let producerSpk ← readMap "malformed producer_spk" readSpkEntry fun _ => false
  let recentProducers ← counted readProducer
  return { pending, earlyResponses, audited, producerSpk, vault, strikes, firstSeen
           recentProducers }

/-- Reads an image off the front of a byte string. -/
def read : Decoder ServiceLedgerSnapshot := do
  let version ← readLe 1
  if version = snapshotEncodingVersion then readBody
  else throw "unsupported snapshot encoding"

/-- Parses an encoded image; rejects malformed, unordered or trailing data. -/
def fromBytes (bytes : List UInt8) : Except String ServiceLedgerSnapshot :=
  match read bytes with
  | .error e => .error e
  | .ok (s, rest) =>
    if rest ≠ [] then .error "trailing bytes"
    else if s.toBytes ≠ bytes then .error "non-canonical snapshot"
    else .ok s

/-- The image is within the widths of the encoding: every number in the range of its field,
every collection countable in 32 bits, every payout script in 16. -/
structure Fits (s : ServiceLedgerSnapshot) : Prop where
  vaultSize : s.vault.size < 2 ^ 32
  vault : ∀ e ∈ s.vault.entries, e.2.length < 2 ^ 32 ∧ ∀ c ∈ e.2, c.Fits
  pendingSize : s.pending.size < 2 ^ 32
  pending : ∀ e ∈ s.pending.entries, e.2.Fits
  earlySize : s.earlyResponses.size < 2 ^ 32
  early : ∀ e ∈ s.earlyResponses.entries, e.2.1 < 2 ^ 64 ∧ e.2.2.length < 2 ^ 32
  strikesSize : s.strikes.size < 2 ^ 32
  strikes : ∀ e ∈ s.strikes.entries, e.2.count < 2 ^ 32 ∧ e.2.lastDaa < 2 ^ 64
  firstSeenSize : s.firstSeen.size < 2 ^ 32
  firstSeen : ∀ e ∈ s.firstSeen.entries, e.2 < 2 ^ 64
  auditedSize : s.audited.size < 2 ^ 32
  audited : ∀ e ∈ s.audited.entries, e.2 < 2 ^ 64
  spkSize : s.producerSpk.size < 2 ^ 32
  spk : ∀ e ∈ s.producerSpk.entries, e.2.version < 2 ^ 16 ∧ e.2.script.length < 2 ^ 16
  producersSize : s.recentProducers.length < 2 ^ 32
  producers : ∀ p ∈ s.recentProducers, p.1 < 2 ^ 64 ∧ p.2.2.1 < 2 ^ 8

/-- An image that fits is read back, whatever follows it. The parser refuses empty deques. -/
theorem reads_snapshot (h : s.Fits) (hvault : ∀ miner, s.vault.get? miner ≠ some []) :
    Reads read s.toBytes s := by
  have hversion : Reads (readLe 1) (leBytes 1 snapshotEncodingVersion)
      snapshotEncodingVersion := reads_le (by decide)
  refine hversion.bind ?_
  refine (reads_map h.vaultSize (fun e he => reads_vaultEntry (h.vault e he).1
    (h.vault e he).2) fun e he => ?_).bind ?_
  · have hne : e.2 ≠ [] := fun h0 => hvault e.1 (h0 ▸ OrdMap.get?_eq_some_iff.mpr he)
    simpa using hne
  refine (reads_map h.pendingSize (fun e he => reads_pendingEntry (h.pending e he))
    fun _ _ => rfl).bind ?_
  refine (reads_map h.earlySize (fun e he => reads_earlyEntry (h.early e he).1
    (h.early e he).2) fun _ _ => rfl).bind ?_
  refine (reads_map h.strikesSize (fun e he => reads_strikeEntry (h.strikes e he).1
    (h.strikes e he).2) fun _ _ => rfl).bind ?_
  refine (reads_map h.firstSeenSize (fun e he => reads_scoreEntry (h.firstSeen e he))
    fun _ _ => rfl).bind ?_
  refine (reads_map h.auditedSize (fun e he => reads_scoreEntry (h.audited e he))
    fun _ _ => rfl).bind ?_
  refine (reads_map h.spkSize (fun e he => reads_spkEntry (h.spk e he).1 (h.spk e he).2)
    fun _ _ => rfl).bind ?_
  exact (reads_counted h.producersSize fun p hp => reads_producer (h.producers p hp).1
    (h.producers p hp).2).last rfl

/-- **Round trip**: an image that fits is parsed back. -/
theorem fromBytes_toBytes (h : s.Fits) (hvault : ∀ miner, s.vault.get? miner ≠ some []) :
    fromBytes s.toBytes = .ok s := by
  have hread := reads_snapshot h hvault []
  rw [List.append_nil] at hread
  rw [fromBytes, hread]
  simp

/-- Bytes left over after an image are refused. -/
theorem fromBytes_trailing (h : s.Fits) (hvault : ∀ miner, s.vault.get? miner ≠ some [])
    {rest : List UInt8} (hrest : rest ≠ []) :
    fromBytes (s.toBytes ++ rest) = .error "trailing bytes" := by
  rw [fromBytes, reads_snapshot h hvault rest]
  simp [hrest]

/-- What is parsed is the encoding of the result. -/
theorem toBytes_of_fromBytes {bytes : List UInt8} (h : fromBytes bytes = .ok s) :
    s.toBytes = bytes := by
  rw [fromBytes] at h
  split at h
  · cases h
  · split_ifs at h with hrest hcanonical
    cases h
    exact not_not.mp hcanonical

/-- **The codec is a bijection onto the bytes it accepts**: images are parsed back, only their
encodings are accepted, each image has one, and all other bytes are an error. -/
theorem snapshot_codec_bijective :
    (∀ s : ServiceLedgerSnapshot, s.Fits → (∀ miner, s.vault.get? miner ≠ some []) →
      fromBytes s.toBytes = .ok s) ∧
    (∀ bytes s, fromBytes bytes = .ok s → s.toBytes = bytes) ∧
    (∀ bytes bytes' s, fromBytes bytes = .ok s → fromBytes bytes' = .ok s → bytes = bytes') ∧
    ∀ bytes, (∀ s : ServiceLedgerSnapshot, s.toBytes ≠ bytes) →
      ∃ e, fromBytes bytes = .error e := by
  refine ⟨fun _ => fromBytes_toBytes, fun _ _ => toBytes_of_fromBytes, fun _ _ _ h h' => ?_,
    fun bytes hbytes => ?_⟩
  · rw [← toBytes_of_fromBytes h, ← toBytes_of_fromBytes h']
  · cases h : fromBytes bytes with
    | error e => exact ⟨e, rfl⟩
    | ok s => exact absurd (toBytes_of_fromBytes h) (hbytes s)

end ServiceLedgerSnapshot

end KeryxNode
