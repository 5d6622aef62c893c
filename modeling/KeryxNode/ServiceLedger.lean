import KeryxNode.Collateral

/-!
# The Service Ledger

`ServiceLedger` is the request-lifecycle ledger of `consensus/core/src/collateral.rs`, folded
once per selected-chain block. Its state has two halves that the source keeps in one
structure: the *request book* (pending requests, early responses, admitted hashes, payout
scripts) and the *bond book* (strikes over a persisted baseline, first sightings over a
baseline, the vault of escrow claims). Each half has its own operations here, under the
source's names; `foldInner` runs them in the source's order, one block at a time.

One fold: the block's producers and escrow claims are recorded, claims past the burnable
window are dropped, expired requests and early responses are forgotten, the block's requests
are admitted, its responses are credited (or parked), and then every pending request is
closed, armed or left alone. A *warmup* fold evolves request and vault memory only: strikes
and sightings are already in the baseline, burned claims are dropped through `isBurned`.

Binary searches in the source run over sorted cohorts and are membership here; a deque is a
list with its newest claim last.
-/

namespace KeryxNode

/-! ### Configuration -/

/-- Activation scores and overrides, installed on every fold entry and untouched by
snapshots. -/
structure LedgerConfig where
  windowV2ActivationDaa : Option ℕ := none
  burnableWindowDaa : Option ℕ := none
  rewardRoutingDaa : Option ℕ := none
  deriving DecidableEq, Repr

namespace LedgerConfig

/-- Whether the v2 gate is live at `daa`. -/
def v2At (c : LedgerConfig) (daa : ℕ) : Bool :=
  c.windowV2ActivationDaa.any fun a => decide (a ≤ daa)

/-- Whether reward routing, and with it the memory of admitted hashes, is live at `daa`. -/
def gatedAt (c : LedgerConfig) (daa : ℕ) : Bool :=
  c.rewardRoutingDaa.any fun a => decide (a ≤ daa)

/-- The burnable window in force. -/
def burnable (c : LedgerConfig) : ℕ :=
  c.burnableWindowDaa.getD serviceBurnableWindowDaa

end LedgerConfig

/-! ### The request book -/

/-- Appends `k` unless it is listed. -/
def pushNew (l : List Hash) (k : Hash) : List Hash :=
  if k ∈ l then l else l ++ [k]

/-- Credits a response signed by escrow key `r`: every cohort identity that delegated to it
and has not responded yet. Returns the audit and the identities credited now. -/
def Audit.credit (a : Audit) (r : Hash) : Audit × List Hash :=
  let matched := (a.delegations.filter fun d => decide (d.1 = r)).map Prod.snd
  matched.foldl (fun s identity =>
    if identity ∈ s.1.cohort ∧ identity ∉ s.1.responded then
      ({ s.1 with responded := s.1.responded ++ [identity] }, s.2 ++ [identity])
    else s) (a, [])

/-- The audit a non-empty cohort set arms: sorted identities, sorted delegations, and the
identities whose escrow key answered before the audit existed. -/
def Audit.arm (windowEndDaa : ℕ) (set : List (Hash × Hash)) (early : List Hash) : Audit :=
  let ids := ((set.map Prod.fst).insertionSort (· ≤ ·)).dedup
  let delegations := sortDedupPairs (set.map Prod.swap)
  let responded := early.foldl (fun acc key =>
    ((delegations.filter fun d => decide (d.1 = key)).map Prod.snd).foldl (fun acc identity =>
      if identity ∈ ids ∧ identity ∉ acc then acc ++ [identity] else acc) acc) []
  { cohort := ids, delegations, responded, windowEndDaa }

/-- The cohort members that did not respond, in cohort order. -/
def Audit.silent (a : Audit) : List Hash :=
  a.cohort.filter fun m => decide (m ∉ a.responded)

/-- Request-side memory of the ledger. -/
structure RequestBook where
  pending : OrdMap Hash PendingRequest := .empty
  /-- Responses whose request is not pending: first-seen score and signing keys. -/
  earlyResponses : OrdMap Hash (ℕ × List Hash) := .empty
  /-- Request hashes already admitted, with the score they were admitted at. -/
  audited : OrdMap Hash ℕ := .empty
  /-- Latest payout script seen per identity. -/
  producerSpk : OrdMap Hash ScriptPublicKey := .empty
  deriving DecidableEq

namespace RequestBook

/-- Records the payout scripts of the block's producers. -/
def recordProducers (b : RequestBook) (producers : List (Hash × ScriptPublicKey)) :
    RequestBook :=
  { b with producerSpk := producers.foldl (fun m p => m.insert p.1 p.2) b.producerSpk }

/-- Forgets what lies beyond its horizon at `daa`. -/
def expire (c : LedgerConfig) (daa : ℕ) (b : RequestBook) : RequestBook :=
  { b with
    pending := b.pending.filter fun _ r => decide (daa < r.acceptedDaa + serviceLedgerHorizonDaa)
    earlyResponses := b.earlyResponses.filter fun _ e =>
      decide (daa < e.1 + serviceEarlyResponseHorizonDaa)
    audited := if c.gatedAt daa then
        b.audited.filter fun _ seen => decide (daa < seen + serviceAuditedMemoryDaa)
      else b.audited }

/-- The entry a first acceptance opens. -/
def openRequest (daa : ℕ) (requestRewards : List (Hash × ℕ)) (rq : Hash × ℕ × ℕ) :
    PendingRequest :=
  { tier := rq.2.1, maxTokens := rq.2.2, acceptedDaa := daa
    reward := ((requestRewards.find? fun p => decide (p.1 = rq.1)).map Prod.snd).getD 0
    winner := none, audit := none, earlyResponders := [] }

/-- Admits one accepted request. Past the gate a hash already admitted opens no second audit;
a re-accepted hash never resets a running one; answers that came early move to the request. -/
def admitRequest (c : LedgerConfig) (daa : ℕ) (requestRewards : List (Hash × ℕ))
    (b : RequestBook) (rq : Hash × ℕ × ℕ) : RequestBook :=
  if c.gatedAt daa ∧ b.audited.contains rq.1 then b
  else
    let early := ((b.earlyResponses.get? rq.1).map Prod.snd).getD []
    let entry := (b.pending.get? rq.1).getD (openRequest daa requestRewards rq)
    let entry := if entry.audit.isNone then
        { entry with earlyResponders := early.foldl pushNew entry.earlyResponders }
      else entry
    { b with
      audited := if c.gatedAt daa then b.audited.insert rq.1 daa else b.audited
      earlyResponses := b.earlyResponses.erase rq.1
      pending := b.pending.insert rq.1 entry }

/-- Parks a response whose request is not pending. -/
def parkEarly (daa : ℕ) (early : OrdMap Hash (ℕ × List Hash)) (rh r : Hash) :
    OrdMap Hash (ℕ × List Hash) :=
  let e := (early.get? rh).getD (daa, [])
  early.insert rh (e.1, pushNew e.2 r)

/-- Folds one authenticated response. Returns the identities it credits. -/
def respond (daa : ℕ) (b : RequestBook) (rh r : Hash) : RequestBook × List Hash :=
  match b.pending.get? rh with
  | none => ({ b with earlyResponses := parkEarly daa b.earlyResponses rh r }, [])
  | some req =>
    match req.audit with
    | none =>
      let parked := { req with earlyResponders := pushNew req.earlyResponders r }
      ({ b with pending := b.pending.insert rh parked }, [])
    | some audit =>
      let credited := { req with audit := some (audit.credit r).1 }
      ({ b with pending := b.pending.insert rh credited }, (audit.credit r).2)

/-- Awards `rh` to `identity` if the request is routed, unawarded and carries a reward. -/
def maybeAward (c : LedgerConfig) (b : RequestBook) (rh identity : Hash) :
    RequestBook × Option ServiceReward :=
  match c.rewardRoutingDaa with
  | none => (b, none)
  | some routedFrom =>
    match b.pending.get? rh with
    | none => (b, none)
    | some req =>
      if req.acceptedDaa < routedFrom ∨ req.winner.isSome ∨ req.reward = 0 then (b, none)
      else
        let won := { req with winner := some identity }
        ({ b with pending := b.pending.insert rh won },
          some ⟨rh, identity, req.reward, b.producerSpk.get? identity⟩)

/-- Awards to the first identity of a list of credits, if there is one. -/
def awardFirst (c : LedgerConfig) (b : RequestBook) (rh : Hash) (credited : List Hash) :
    RequestBook × Option ServiceReward :=
  match credited.head? with
  | none => (b, none)
  | some first => b.maybeAward c rh first

/-- The hash `minByKey` picks: least first-seen score, ties by hash. -/
def oldestEarly : List (Hash × (ℕ × List Hash)) → Option (ℕ × Hash)
  | [] => none
  | e :: l =>
    match oldestEarly l with
    | none => some (e.2.1, e.1)
    | some o => if e.2.1 < o.1 ∨ (e.2.1 = o.1 ∧ e.1 ≤ o.2) then some (e.2.1, e.1) else some o

/-- Drops the oldest early response. -/
def evictOldest (early : OrdMap Hash (ℕ × List Hash)) : OrdMap Hash (ℕ × List Hash) :=
  match oldestEarly early.entries with
  | none => early
  | some o => early.erase o.2

/-- Evicts oldest first until the ceiling on early hashes is met. Each round drops one hash,
so as many rounds as there are hashes suffice. -/
def evictLoop : ℕ → OrdMap Hash (ℕ × List Hash) → OrdMap Hash (ℕ × List Hash)
  | 0, early => early
  | fuel + 1, early =>
    if maxEarlyResponseHashes < early.size then evictLoop fuel (evictOldest early) else early

/-- Applies the ceiling on early hashes. -/
def evictEarly (b : RequestBook) : RequestBook :=
  { b with earlyResponses := evictLoop b.earlyResponses.size b.earlyResponses }

/-- What one pending request does at a block: the members a closing audit finds silent, or
the identities an arming audit credits with the reward it decides. -/
structure AuditStep where
  book : RequestBook
  silent : List Hash := []
  credited : List Hash := []
  reward : Option ServiceReward := none

/-- Closes the audit of `rh` past its window, arms it once its acceptance block is behind, or
leaves it alone. A request whose tier has no cohort is dropped. -/
def closeOrArm (c : LedgerConfig) (daa : ℕ) (cohort : ℕ → List (Hash × Hash))
    (b : RequestBook) (rh : Hash) : AuditStep :=
  match b.pending.get? rh with
  | none => { book := b }
  | some req =>
    match req.audit with
    | some a =>
      if a.windowEndDaa < daa then
        { book := { b with pending := b.pending.erase rh }, silent := a.silent }
      else { book := b }
    | none =>
      if req.acceptedDaa < daa then
        if cohort req.tier = [] then
          { book := { b with pending := b.pending.erase rh } }
        else
          let window := serviceWindowDaaAt req.tier req.maxTokens (c.v2At daa)
          let audit := Audit.arm (daa + window) (cohort req.tier) req.earlyResponders
          let armed := { req with audit := some audit, earlyResponders := [] }
          let awarded :=
            { b with pending := b.pending.insert rh armed }.awardFirst c rh audit.responded
          { book := awarded.1, credited := audit.responded, reward := awarded.2 }
      else { book := b }

end RequestBook

/-! ### The bond book -/

/-- Strike-side memory of the ledger: the strike and sighting deltas over their persisted
baselines, and the vault. -/
structure BondBook where
  strikes : OrdMap Hash StrikeEntry := .empty
  /-- Still-locked escrow claims per miner, newest last. -/
  vault : OrdMap Hash (List EscrowClaim) := .empty
  base : OrdMap Hash StrikeEntry := .empty
  firstSeen : OrdMap Hash ℕ := .empty
  firstSeenBase : OrdMap Hash ℕ := .empty
  deriving DecidableEq

namespace BondBook

/-- The miner's strike state: the folded delta, falling back to the baseline. -/
def strikeState (b : BondBook) (miner : Hash) : Option StrikeEntry :=
  (b.strikes.get? miner).or (b.base.get? miner)

/-- The miner's consecutive-miss count. -/
def consecutiveMisses (b : BondBook) (miner : Hash) : ℕ :=
  ((b.strikeState miner).map StrikeEntry.count).getD 0

/-- The score an identity was first sighted at, as the delta over its baseline has it. -/
def sighted (b : BondBook) (miner : Hash) : Option ℕ :=
  (b.firstSeen.get? miner).or (b.firstSeenBase.get? miner)

/-- The miner's still-locked claims, oldest first. -/
def vaultClaims (b : BondBook) (miner : Hash) : List EscrowClaim :=
  (b.vault.get? miner).getD []

/-- Records one escrow claim, and the sighting of its identity if this is the first. A warmup
fold records no sighting and drops burned claims. -/
def admitEscrow (warmupBurned : Option (TransactionOutpoint → Bool))
    (s : BondBook × List Hash) (e : Hash × EscrowClaim) : BondBook × List Hash :=
  let sighted :=
    if warmupBurned.isNone ∧ ¬ s.1.firstSeen.contains e.1 ∧ ¬ s.1.firstSeenBase.contains e.1 then
      ({ s.1 with firstSeen := s.1.firstSeen.insert e.1 e.2.daa }, s.2 ++ [e.1])
    else s
  if warmupBurned.any fun isBurned => isBurned e.2.outpoint then sighted
  else
    ({ sighted.1 with vault := sighted.1.vault.insert e.1 (sighted.1.vaultClaims e.1 ++ [e.2]) },
      sighted.2)

/-- Whether a claim is past the burnable window at `daa`. -/
def stale (burnable daa : ℕ) (c : EscrowClaim) : Bool :=
  decide (c.daa + burnable ≤ daa)

/-- Drops the claims past the burnable window from the front of every deque, and the deques
left empty. Returns the dropped claims in pop order. -/
def purgeExpired (burnable daa : ℕ) (b : BondBook) : BondBook × List (Hash × EscrowClaim) :=
  let kept := b.vault.map fun _ cs => cs.dropWhile (stale burnable daa)
  ({ b with vault := kept.filter fun _ cs => decide (cs ≠ []) },
    b.vault.entries.flatMap fun e => (e.2.takeWhile (stale burnable daa)).map fun c => (e.1, c))

/-- How many claims of `claims` a penalty takes. -/
def burnCount (penalty : ServicePenalty) (claims : List EscrowClaim) : ℕ :=
  match penalty with
  | .none => 0
  | .burnClaims n => min n claims.length
  | .slashAllPending | .suspend => claims.length

/-- Takes the claims a penalty burns off the back of the miner's deque, newest first. -/
def burn (b : BondBook) (miner : Hash) (penalty : ServicePenalty) :
    BondBook × List EscrowClaim :=
  match b.vault.get? miner with
  | none => (b, [])
  | some claims =>
    let take := burnCount penalty claims
    let rest := claims.take (claims.length - take)
    ({ b with vault := if rest = [] then b.vault.erase miner else b.vault.insert miner rest },
      (claims.drop (claims.length - take)).reverse)

/-- Last-strike score a reset carries forward: 0 before the v2 gate. -/
def resetPreservedLastDaa (v2 : Bool) (b : BondBook) (identity : Hash) : ℕ :=
  if v2 then ((b.strikeState identity).map StrikeEntry.lastDaa).getD 0 else 0

/-- Resets the streak of an identity that served, if it has one. -/
def resetServed (v2 : Bool) (s : BondBook × List (Hash × ℕ)) (identity : Hash) :
    BondBook × List (Hash × ℕ) :=
  if (s.1.strikeState identity).any fun e => decide (0 < e.count) then
    let preserved := s.1.resetPreservedLastDaa v2 identity
    ({ s.1 with strikes := s.1.strikes.insert identity ⟨0, preserved⟩ },
      s.2 ++ [(identity, preserved)])
  else s

/-- Whether a miss of the miner at `daa` falls inside the interval of its last strike. -/
def rateLimited (b : BondBook) (daa : ℕ) (miner : Hash) : Bool :=
  (b.strikeState miner).any fun e =>
    decide (0 < e.lastDaa ∧ daa < e.lastDaa + serviceStrikeIntervalDaa)

/-- Strikes a silent miner: at most once per interval, escalating with its streak. The third
strike suspends and restarts the streak. -/
def strike (daa : ℕ) (v2 : Bool) (isEstablished : Hash → Bool) (rh : Hash)
    (s : BondBook × List ServiceMiss) (miner : Hash) : BondBook × List ServiceMiss :=
  if s.1.rateLimited daa miner then s
  else
    let count := s.1.consecutiveMisses miner + 1
    let struck := { s.1 with strikes := s.1.strikes.insert miner ⟨count, daa⟩ }
    let penalty := strikePenaltyAt count (isEstablished miner) v2
    let burnt := struck.burn miner penalty
    let final := if penalty = .suspend then
        { burnt.1 with strikes := burnt.1.strikes.insert miner ⟨0, daa⟩ }
      else burnt.1
    (final, s.2 ++ [⟨rh, miner, count, penalty, burnt.2⟩])

end BondBook

/-! ### The fold -/

/-- The request-lifecycle ledger. -/
structure ServiceLedger extends LedgerConfig, RequestBook, BondBook where
  deriving DecidableEq

/-- Ledger, outcome so far and identities credited at an arming, inside one fold. -/
structure FoldState where
  ledger : ServiceLedger
  outcome : FoldOutcome := {}
  servedAtArm : List Hash := []

namespace FoldState

/-- Adds a decided reward to the outcome. A warmup fold emits none: its row is persisted. -/
def emitReward (warmup : Bool) (s : FoldState) (reward : Option ServiceReward) : FoldState :=
  if warmup then s
  else { s with outcome := { s.outcome with rewards := s.outcome.rewards ++ reward.toList } }

/-- Resets the streaks of identities that served. A warmup fold leaves strikes alone. -/
def resetServed (daa : ℕ) (warmup : Bool) (s : FoldState) (served : List Hash) : FoldState :=
  if warmup then s
  else
    let r := served.foldl (BondBook.resetServed (s.ledger.v2At daa))
      (s.ledger.toBondBook, s.outcome.resets)
    { s with ledger := { s.ledger with toBondBook := r.1 }
             outcome := { s.outcome with resets := r.2 } }

/-- Folds one response: an unauthenticated one is ignored. -/
def response (daa : ℕ) (warmup : Bool) (s : FoldState) (resp : Hash × Option Hash) :
    FoldState :=
  match resp.2 with
  | none => s
  | some r =>
    let answered := s.ledger.toRequestBook.respond daa resp.1 r
    let awarded := answered.1.awardFirst s.ledger.toLedgerConfig resp.1 answered.2
    (({ s with ledger := { s.ledger with toRequestBook := awarded.1 } }).emitReward warmup
      awarded.2).resetServed daa warmup answered.2

/-- Visits one pending request: strikes the silent members of a closing audit, credits the
early answers of an arming one. -/
def visit (daa : ℕ) (warmup : Bool) (isEstablished : Hash → Bool)
    (cohort : ℕ → List (Hash × Hash)) (s : FoldState) (rh : Hash) : FoldState :=
  let step := s.ledger.toRequestBook.closeOrArm s.ledger.toLedgerConfig daa cohort rh
  let struck := if warmup then (s.ledger.toBondBook, s.outcome.misses)
    else step.silent.foldl (BondBook.strike daa (s.ledger.v2At daa) isEstablished rh)
      (s.ledger.toBondBook, s.outcome.misses)
  ({ s with
      ledger := { s.ledger with toRequestBook := step.book, toBondBook := struck.1 }
      outcome := { s.outcome with misses := struck.2 }
      servedAtArm := s.servedAtArm ++ step.credited }).emitReward warmup step.reward

/-- Applies the ceiling on early responses. -/
def evict (s : FoldState) : FoldState :=
  { s with ledger := { s.ledger with toRequestBook := s.ledger.toRequestBook.evictEarly } }

/-- Closes the block: identities credited at an arming have served. -/
def close (daa : ℕ) (warmup : Bool) (s : FoldState) : FoldState :=
  s.resetServed daa warmup s.servedAtArm

end FoldState

namespace ServiceLedger

/-- Records the block's producers and escrow claims, and drops stale claims. -/
def openBlock (L : ServiceLedger) (i : FoldInput)
    (warmupBurned : Option (TransactionOutpoint → Bool)) : FoldState :=
  let escrowed := i.escrows.foldl (BondBook.admitEscrow warmupBurned) (L.toBondBook, [])
  let purged := escrowed.1.purgeExpired L.burnable i.daa
  { ledger := { L with
      toRequestBook := L.toRequestBook.recordProducers i.producers
      toBondBook := purged.1 }
    outcome := { sightings := escrowed.2, expired := purged.2 } }

/-- Forgets expired requests and admits the block's own. -/
def admitRequests (L : ServiceLedger) (i : FoldInput) : ServiceLedger :=
  let retained := L.toRequestBook.expire L.toLedgerConfig i.daa
  let admitOne := RequestBook.admitRequest L.toLedgerConfig i.daa i.requestRewards
  { L with toRequestBook := i.requests.foldl admitOne retained }

/-- Folds one chain block; `warmupBurned` is present exactly in a warmup fold. -/
def foldInner (L : ServiceLedger) (i : FoldInput)
    (warmupBurned : Option (TransactionOutpoint → Bool)) (isEstablished : Hash → Bool)
    (cohort : ℕ → List (Hash × Hash)) : ServiceLedger × FoldOutcome :=
  let warmup := warmupBurned.isSome
  let opened := L.openBlock i warmupBurned
  let admitted := { opened with ledger := opened.ledger.admitRequests i }
  let answered := (i.responses.foldl (FoldState.response i.daa warmup) admitted).evict
  let visited := answered.ledger.pending.keys.foldl
    (FoldState.visit i.daa warmup isEstablished cohort) answered
  let closed := visited.close i.daa warmup
  (closed.ledger, closed.outcome)

/-- Folds one selected-chain block with the reward-routing inputs. -/
def onChainBlockWithRewards (L : ServiceLedger) (i : FoldInput) (isEstablished : Hash → Bool)
    (cohort : ℕ → List (Hash × Hash)) : ServiceLedger × FoldOutcome :=
  L.foldInner i none isEstablished cohort

/-- Folds one selected-chain block: no vaulted rewards, no producers. -/
def onChainBlock (L : ServiceLedger) (i : FoldInput) (isEstablished : Hash → Bool)
    (cohort : ℕ → List (Hash × Hash)) : ServiceLedger × FoldOutcome :=
  L.foldInner { i with requestRewards := [], producers := [] } none isEstablished cohort

/-- Folds a chain block whose strike events are already persisted, with the reward-routing
inputs. -/
def onChainBlockWarmupWithRewards (L : ServiceLedger) (i : FoldInput)
    (isBurned : TransactionOutpoint → Bool) (cohort : ℕ → List (Hash × Hash)) :
    ServiceLedger :=
  (L.foldInner i (some isBurned) (fun _ => true) cohort).1

/-- Folds a chain block whose strike events are already persisted. -/
def onChainBlockWarmup (L : ServiceLedger) (i : FoldInput)
    (isBurned : TransactionOutpoint → Bool) (cohort : ℕ → List (Hash × Hash)) :
    ServiceLedger :=
  (L.foldInner { i with requestRewards := [], producers := [] } (some isBurned)
    (fun _ => true) cohort).1

/-- Installs the persisted strike baseline. -/
def setBase (L : ServiceLedger) (base : OrdMap Hash StrikeEntry) : ServiceLedger :=
  { L with base }

/-- Installs the persisted first-sighting baseline. -/
def setFirstSeenBase (L : ServiceLedger) (base : OrdMap Hash ℕ) : ServiceLedger :=
  { L with firstSeenBase := base }

/-- Installs the activation scores of the network. -/
def configure (L : ServiceLedger) (c : LedgerConfig) : ServiceLedger :=
  { L with toLedgerConfig := c }

end ServiceLedger

/-! ### Runs -/

/-- The arguments of one fold. -/
structure FoldCall where
  input : FoldInput
  isEstablished : Hash → Bool
  cohort : ℕ → List (Hash × Hash)

namespace ServiceLedger

/-- Folds one call normally. -/
def fold (L : ServiceLedger) (call : FoldCall) : ServiceLedger × FoldOutcome :=
  L.onChainBlockWithRewards call.input call.isEstablished call.cohort

/-- Folds a list of calls; returns the ledger and the outcomes in order. -/
def run (L : ServiceLedger) : List FoldCall → ServiceLedger × List FoldOutcome
  | [] => (L, [])
  | call :: calls =>
    let rest := (L.fold call).1.run calls
    (rest.1, (L.fold call).2 :: rest.2)

end ServiceLedger

end KeryxNode
