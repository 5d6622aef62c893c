import Mathlib.Data.Finset.Insert
import KeryxNode.ChainData
import KeryxNode.SnapshotCodec

/-!
# Stores, Mirrors and the Finality Flush

Service-bond events wait in a queue until they are finality-deep, and are then *flushed*:
persisted row by row in four stores, mirrored in memory for block validation, and added to
the sealed commitment. `FlushState.flushEvent` is the body of the flush loop of
`advance_service_ledger`, `loadServiceBurned` the boot-time load that rebuilds the mirrors
from the stores.

Every row written is a `StoreWrite`; a process that stops inside the flush leaves the stores
after a prefix of those writes. Logging is left out.
-/

namespace KeryxNode

open ByteCodec

/-! ### Events -/

/-- One strike-affecting event awaiting finality. -/
inductive ServiceEvent where
  | miss (m : ServiceMiss)
  /-- A served-response reset with the preserved last-strike score. -/
  | reset (identity : Hash) (preserved : ℕ)
  | sighting (identity : Hash)
  | reward (r : ServiceReward)
  deriving DecidableEq

/-- A queued event with the chain index and score of its block. -/
structure QueuedEvent where
  index : ℕ
  daa : ℕ
  event : ServiceEvent
  deriving DecidableEq

/-- The events of one fold in queue order: sightings, misses, resets, rewards. -/
def FoldOutcome.events (o : FoldOutcome) : List ServiceEvent :=
  o.sightings.map .sighting ++ o.misses.map .miss ++ o.resets.map (fun r => .reset r.1 r.2)
    ++ o.rewards.map .reward

/-- The events of one fold, queued. -/
def FoldOutcome.queued (o : FoldOutcome) (index daa : ℕ) : List QueuedEvent :=
  o.events.map fun event => { index, daa, event }

/-! ### Stores -/

/-- The persisted rows. The strike log is keyed by event score, then miner. -/
structure ServiceStores where
  burn : OrdMap TransactionOutpoint ℕ := .empty
  strike : OrdMap (ℕ ×ₗ Hash) StrikeEntry := .empty
  firstSeen : OrdMap Hash ℕ := .empty
  reward : OrdMap Hash RewardEntry := .empty
  /-- Encoded ledger images at sample blocks. -/
  ledgerSnapshot : OrdMap Hash (List UInt8) := .empty
  deriving DecidableEq

/-- One row written by the flush. -/
inductive StoreWrite where
  | burn (outpoint : TransactionOutpoint) (daa : ℕ)
  | strike (daa : ℕ) (miner : Hash) (entry : StrikeEntry)
  | firstSeen (miner : Hash) (daa : ℕ)
  | reward (requestHash : Hash) (entry : RewardEntry)
  deriving DecidableEq

namespace StoreWrite

/-- The event score of a row. -/
def daa : StoreWrite → ℕ
  | burn _ daa => daa
  | strike daa _ _ => daa
  | firstSeen _ daa => daa
  | reward _ entry => entry.daa

/-- Canonical bytes of a row. -/
def rowBytes : StoreWrite → List UInt8
  | burn o daa => 0x01 :: hashBytes o.transactionId ++ leBytes 4 o.index ++ leBytes 8 daa
  | strike daa miner e =>
    0x02 :: leBytes 8 daa ++ hashBytes miner ++ leBytes 4 e.count ++ leBytes 8 e.lastDaa
  | firstSeen miner daa => 0x03 :: hashBytes miner ++ leBytes 8 daa
  | reward rh e =>
    0x04 :: hashBytes rh ++ hashBytes e.winner ++ leBytes 8 e.amount ++ leBytes 8 e.daa ++
      match e.spk with
      | some s => leBytes 2 s.version ++ leBytes 2 s.script.length ++ s.script
      | none => leBytes 2 0 ++ leBytes 2 0

end StoreWrite

namespace ServiceStores

/-- Persists one row. -/
def write (s : ServiceStores) : StoreWrite → ServiceStores
  | .burn o daa => { s with burn := s.burn.insert o daa }
  | .strike daa miner e => { s with strike := s.strike.insert (toLex (daa, miner)) e }
  | .firstSeen miner daa => { s with firstSeen := s.firstSeen.insert miner daa }
  | .reward rh e => { s with reward := s.reward.insert rh e }

/-- Persists rows in order. -/
def writeAll (s : ServiceStores) (ws : List StoreWrite) : ServiceStores :=
  ws.foldl write s

end ServiceStores

/-! ### Standing -/

/-- One mirrored strike-log row of an identity. -/
structure StrikeRow where
  daa : ℕ
  count : ℕ
  lastDaa : ℕ
  deriving DecidableEq

/-- Memory mirror of the sightings and the strike history of each identity. -/
structure StandingIndex where
  firstSeen : OrdMap Hash ℕ := .empty
  /-- Rows of each identity in increasing score order. -/
  history : OrdMap Hash (List StrikeRow) := .empty
  deriving DecidableEq

namespace StandingIndex

/-- Records a sighting; false if the identity was already sighted. -/
def recordSighting (x : StandingIndex) (id : Hash) (daa : ℕ) : StandingIndex × Bool :=
  if x.firstSeen.contains id then (x, false)
  else ({ x with firstSeen := x.firstSeen.insert id daa }, true)

/-- Records a strike-log row; false if that row of the identity is already mirrored. -/
def recordStrike (x : StandingIndex) (id : Hash) (row : StrikeRow) : StandingIndex × Bool :=
  let rows := (x.history.get? id).getD []
  if rows.any fun r => decide (r.daa = row.daa) then (x, false)
  else
    let sorted := (rows ++ [row]).insertionSort fun a b => a.daa ≤ b.daa
    ({ x with history := x.history.insert id sorted }, true)

/-- Whether the identity is in standing at `pov`: sighted at or before the lagged anchor and,
before the v2 gate, with no live strike there. -/
def standing (x : StandingIndex) (id : Hash) (pov : ℕ) (v2 : Bool) : Bool :=
  let anchor := pov - serviceStandingLagDaa
  (x.firstSeen.get? id).any (fun f => decide (f ≤ anchor)) &&
    (v2 || match x.history.get? id with
      | none => true
      | some rows =>
        ((rows.filter fun r => decide (r.daa ≤ anchor)).getLast?).all
          fun r => decide (r.count = 0))

end StandingIndex

/-! ### The sealed commitment -/

/-- The rows accumulated so far and the sealed commitments by score. -/
structure ServiceCommitIndex where
  acc : Multiset (List UInt8) := 0
  snapshots : OrdMap ℕ Hash := .empty
  deriving DecidableEq

namespace ServiceCommitIndex

/-- Adds one canonical row. -/
def addRow (x : ServiceCommitIndex) (row : List UInt8) : ServiceCommitIndex :=
  { x with acc := row ::ₘ x.acc }

/-- Seals the accumulator as the commitment of `daa`. -/
def sealAt (finalize : Multiset (List UInt8) → Hash) (x : ServiceCommitIndex) (daa : ℕ) :
    ServiceCommitIndex :=
  { x with snapshots := x.snapshots.insert daa (finalize x.acc) }

/-- The sealed commitment as of `daa`; the zero hash if nothing is sealed that deep. -/
def commitmentAt (x : ServiceCommitIndex) (daa : ℕ) : Hash :=
  (((x.snapshots.entries.filter fun e => decide (e.1 ≤ daa)).getLast?).map Prod.snd).getD zeroHash

/-- Adds rows in score order and seals each score after its last row. -/
def sealRows (finalize : Multiset (List UInt8) → Hash) :
    ServiceCommitIndex → List (ℕ × List UInt8) → ServiceCommitIndex
  | x, [] => x
  | x, (daa, row) :: rest =>
    let added := x.addRow row
    if (rest.head?).any fun r => decide (r.1 = daa) then sealRows finalize added rest
    else sealRows finalize (sealAt finalize added daa) rest

/-- Rebuilds the index from the full row set, in any order. -/
def rebuild (finalize : Multiset (List UInt8) → Hash) (rows : List (ℕ × List UInt8)) :
    ServiceCommitIndex :=
  sealRows finalize {} (rows.insertionSort fun a b => a.1 ≤ b.1)

end ServiceCommitIndex

/-! ### Mirrors -/

/-- The memory sets block validation reads. -/
structure ServiceMirrors where
  burned : OrdMap TransactionOutpoint ℕ := .empty
  /-- Deadline of the suspension of each identity. -/
  suspended : OrdMap Hash ℕ := .empty
  standing : StandingIndex := {}
  rewarded : Finset Hash := ∅
  /-- Wins by event score: request, amount, payout script. -/
  rewardRecent : OrdMap ℕ (List (Hash × ℕ × Option ScriptPublicKey)) := .empty
  commit : ServiceCommitIndex := {}
  /-- Digest of the persisted image at each sample block. -/
  ledgerHashes : OrdMap Hash Hash := .empty
  importedProducers : List (ℕ × Hash × ℕ × Hash) := []
  deriving DecidableEq

namespace ServiceMirrors

/-- Whether `producer` is under a finality-deep suspension at `daaScore`. -/
def isProducerSuspended (m : ServiceMirrors) (producer : Hash) (daaScore : ℕ) : Bool :=
  (m.suspended.get? producer).any fun until_ =>
    decide (until_ - serviceSuspensionDaa ≤ daaScore ∧ daaScore < until_)

/-- Appends a win under its score. -/
def pushReward (m : ServiceMirrors) (daa : ℕ) (win : Hash × ℕ × Option ScriptPublicKey) :
    ServiceMirrors :=
  { m with rewardRecent :=
      m.rewardRecent.insert daa ((m.rewardRecent.get? daa).getD [] ++ [win]) }

end ServiceMirrors

/-! ### The flush -/

/-- Stores, mirrors and frontier while the queue is flushed, with the score being sealed. -/
structure FlushState where
  stores : ServiceStores
  mirrors : ServiceMirrors
  deepCursorDaa : ℕ
  sealingDaa : Option ℕ := none
  deriving DecidableEq

namespace FlushState

variable (N : Network)

/-- Persists one row and adds it to the commitment. -/
def write (s : FlushState) (w : StoreWrite) : FlushState :=
  { s with
    stores := s.stores.write w
    mirrors := { s.mirrors with commit := s.mirrors.commit.addRow w.rowBytes } }

/-- Burns one claim. A claim already burned moves its mirrored score but writes no row. -/
def burnClaim (daa : ℕ) (s : FlushState) (c : EscrowClaim) : FlushState :=
  let mirrored := { s with
    mirrors := { s.mirrors with burned := s.mirrors.burned.insert c.outpoint daa } }
  if s.mirrors.burned.contains c.outpoint then mirrored
  else mirrored.write (.burn c.outpoint daa)

/-- Logs a strike record, unless the identity has a row at this score. -/
def logStrike (daa : ℕ) (miner : Hash) (entry : StrikeEntry) (s : FlushState) : FlushState :=
  let recorded := s.mirrors.standing.recordStrike miner ⟨daa, entry.count, entry.lastDaa⟩
  let mirrored := { s with mirrors := { s.mirrors with standing := recorded.1 } }
  if recorded.2 then mirrored.write (.strike daa miner entry) else mirrored

/-- The record a miss logs: an executed suspension restarts the streak. -/
def missRecord (daa : ℕ) (m : ServiceMiss) : StrikeEntry :=
  if m.penalty = .suspend then ⟨0, daa⟩ else ⟨m.consecutiveMisses, daa⟩

/-- Flushes a miss: its burned claims, its strike record, its suspension. -/
def flushMiss (daa : ℕ) (m : ServiceMiss) (s : FlushState) : FlushState :=
  let burned := m.burned.foldl (burnClaim daa) s
  let logged := burned.logStrike daa m.miner (missRecord daa m)
  if m.penalty = .suspend then
    { logged with mirrors := { logged.mirrors with
        suspended := logged.mirrors.suspended.insert m.miner
          (daa + N.finalityDepth + serviceSuspensionDaa) } }
  else logged

/-- Flushes a first sighting, unless the identity is known. -/
def flushSighting (daa : ℕ) (miner : Hash) (s : FlushState) : FlushState :=
  let recorded := s.mirrors.standing.recordSighting miner daa
  let mirrored := { s with mirrors := { s.mirrors with standing := recorded.1 } }
  if recorded.2 then mirrored.write (.firstSeen miner daa) else mirrored

/-- Flushes a reward, unless the request was rewarded. -/
def flushReward (daa : ℕ) (r : ServiceReward) (s : FlushState) : FlushState :=
  if r.requestHash ∈ s.mirrors.rewarded then s
  else
    let mirrored := { s with
      mirrors := { s.mirrors with rewarded := insert r.requestHash s.mirrors.rewarded } }
    let written := mirrored.write (.reward r.requestHash ⟨r.winner, r.amount, daa, r.spk⟩)
    { written with
      mirrors := written.mirrors.pushReward daa (r.requestHash, r.amount, r.spk) }

/-- Flushes one event. -/
def flushEvent (daa : ℕ) (e : ServiceEvent) (s : FlushState) : FlushState :=
  match e with
  | .sighting miner => s.flushSighting daa miner
  | .reset miner preserved => s.logStrike daa miner ⟨0, preserved⟩
  | .miss m => s.flushMiss N daa m
  | .reward r => s.flushReward daa r

/-- Seals a score. -/
def sealAt (s : FlushState) (daa : ℕ) : FlushState :=
  { s with mirrors := { s.mirrors with commit := s.mirrors.commit.sealAt N.finalize daa } }

/-- Seals the previous score if the next event is of another one. -/
def sealPrevious (daa : ℕ) (s : FlushState) : FlushState :=
  match s.sealingDaa with
  | none => s
  | some d => if d = daa then s else s.sealAt N d

/-- One round of the flush loop. -/
def step (s : FlushState) (q : QueuedEvent) : FlushState :=
  let sealed := { s.sealPrevious N q.daa with sealingDaa := some q.daa }
  let flushed := sealed.flushEvent N q.daa q.event
  { flushed with deepCursorDaa := max flushed.deepCursorDaa q.daa }

/-- Seals the last score. -/
def finish (s : FlushState) : FlushState :=
  match s.sealingDaa with
  | none => s
  | some d => { s.sealAt N d with sealingDaa := none }

/-- Flushes a list of events. -/
def flush (s : FlushState) (events : List QueuedEvent) : FlushState :=
  (events.foldl (step N) s).finish N

end FlushState

/-! ### Boot -/

/-- Mirrors under construction at boot, with the rows read so far and their highest score. -/
structure BootState where
  mirrors : ServiceMirrors := {}
  rows : List StoreWrite := []
  cursor : ℕ := 0

namespace BootState

/-- Notes a row for the commitment and the frontier. -/
def note (s : BootState) (w : StoreWrite) : BootState :=
  { s with rows := s.rows ++ [w], cursor := max s.cursor w.daa }

/-- Loads one burned outpoint. -/
def loadBurn (s : BootState) (e : TransactionOutpoint × ℕ) : BootState :=
  { s with mirrors := { s.mirrors with
      burned := s.mirrors.burned.insert e.1 e.2 } }.note (.burn e.1 e.2)

/-- Loads one strike-log row. An executed suspension logs its own score; a served reset
carries a strictly older one. -/
def loadStrike (N : Network) (s : BootState) (e : (ℕ ×ₗ Hash) × StrikeEntry) : BootState :=
  let eventDaa := (ofLex e.1).1
  let miner := (ofLex e.1).2
  let standing := (s.mirrors.standing.recordStrike miner
    ⟨eventDaa, e.2.count, e.2.lastDaa⟩).1
  let suspended := if e.2.count = 0 ∧ e.2.lastDaa = eventDaa then
      s.mirrors.suspended.insert miner (e.2.lastDaa + N.finalityDepth + serviceSuspensionDaa)
    else s.mirrors.suspended
  { s with mirrors := { s.mirrors with standing, suspended } }.note
    (.strike eventDaa miner e.2)

/-- Loads one first sighting. -/
def loadFirstSeen (s : BootState) (e : Hash × ℕ) : BootState :=
  { s with mirrors := { s.mirrors with
      standing := (s.mirrors.standing.recordSighting e.1 e.2).1 } }.note (.firstSeen e.1 e.2)

/-- Loads one reward. -/
def loadReward (s : BootState) (e : Hash × RewardEntry) : BootState :=
  let rewarded := { s.mirrors with rewarded := insert e.1 s.mirrors.rewarded }
  { s with mirrors := rewarded.pushReward e.2.daa (e.1, e.2.amount, e.2.spk) }.note
    (.reward e.1 e.2)

/-- Reads the four stores in the source's order, each in key order. -/
def load (N : Network) (stores : ServiceStores) : BootState :=
  let burned := stores.burn.entries.foldl loadBurn {}
  let struck := stores.strike.entries.foldl (loadStrike N) burned
  let sighted := stores.firstSeen.entries.foldl loadFirstSeen struck
  stores.reward.entries.foldl loadReward sighted

end BootState

/-- The producers the persisted image at the own pruning point carries. -/
def importedProducersAt (stores : ServiceStores) (ownPp : Hash) : List (ℕ × Hash × ℕ × Hash) :=
  match (stores.ledgerSnapshot.get? ownPp).map ServiceLedgerSnapshot.fromBytes with
  | some (.ok s) => s.recentProducers
  | _ => []

/-- Boot-time load: the mirrors and the persisted frontier, from the stores alone. -/
def loadServiceBurned (N : Network) (stores : ServiceStores) (ownPp : Hash) :
    ServiceMirrors × ℕ :=
  let boot := BootState.load N stores
  let rows := boot.rows.map fun w => (w.daa, w.rowBytes)
  ({ boot.mirrors with
      commit := .rebuild N.finalize rows
      ledgerHashes := stores.ledgerSnapshot.map fun _ bytes => N.hashOfBytes bytes
      importedProducers := importedProducersAt stores ownPp },
    boot.cursor)

end KeryxNode
