import KeryxNode.ServiceLedger

/-!
# The Two Halves of a Fold

`foldInner` interleaves the request book and the bond book, but information flows one way:
the request book decides who is credited, who is silent and who wins a reward, and never
reads a strike or a claim. This module separates the halves. `RequestBook.replay` folds the
request side alone and returns a `BookTrace` — the credits, closings and arming credits of
the block, in the order the fold produces them — and `BondBook.settle` consumes such a trace
on the bond side.
-/

namespace KeryxNode

open List BondBook

/-! ### The request side -/

/-- The request book while responses are folded: the identities they credit and the rewards
they decide, in order. -/
structure AnswerTrace where
  book : RequestBook
  credits : List Hash := []
  rewards : List ServiceReward := []

/-- The request book after a block, with what the bond side has to know: the credits and
rewards, the silent members of closing audits as `(request, member)`, the identities credited
at an arming. -/
structure BookTrace extends AnswerTrace where
  closings : List (Hash × Hash) := []
  armCredits : List Hash := []

/-- Folds one response on the request side. -/
def AnswerTrace.answer (c : LedgerConfig) (daa : ℕ) (t : AnswerTrace)
    (resp : Hash × Option Hash) : AnswerTrace :=
  match resp.2 with
  | none => t
  | some r =>
    let answered := t.book.respond daa resp.1 r
    let awarded := answered.1.awardFirst c resp.1 answered.2
    { book := awarded.1
      credits := t.credits ++ answered.2
      rewards := t.rewards ++ awarded.2.toList }

/-- Applies the ceiling on early responses and opens the visits. -/
def AnswerTrace.evict (t : AnswerTrace) : BookTrace :=
  { t with book := t.book.evictEarly }

/-- Visits one pending request on the request side. -/
def BookTrace.visit (c : LedgerConfig) (daa : ℕ) (cohort : ℕ → List (Hash × Hash))
    (t : BookTrace) (rh : Hash) : BookTrace :=
  let step := t.book.closeOrArm c daa cohort rh
  { book := step.book
    credits := t.credits
    rewards := t.rewards ++ step.reward.toList
    closings := t.closings ++ step.silent.map fun m => (rh, m)
    armCredits := t.armCredits ++ step.credited }

namespace RequestBook

/-- The request book with the block's producers recorded, expired entries forgotten and the
block's requests admitted. -/
def admitAll (c : LedgerConfig) (i : FoldInput) (b : RequestBook) : RequestBook :=
  i.requests.foldl (admitRequest c i.daa i.requestRewards)
    ((b.recordProducers i.producers).expire c i.daa)

/-- The responses of the block, answered and trimmed. -/
def answerAll (c : LedgerConfig) (i : FoldInput) (b : RequestBook) : BookTrace :=
  (i.responses.foldl (AnswerTrace.answer c i.daa) { book := b.admitAll c i }).evict

/-- One whole block on the request side. -/
def replay (c : LedgerConfig) (i : FoldInput) (cohort : ℕ → List (Hash × Hash))
    (b : RequestBook) : BookTrace :=
  let answered := b.answerAll c i
  answered.book.pending.keys.foldl (BookTrace.visit c i.daa cohort) answered

end RequestBook

/-! ### The bond side -/

namespace BondBook

/-- Opens a block on the bond side: escrow claims, sightings, purge. -/
def openBlock (burnable : ℕ) (i : FoldInput)
    (warmupBurned : Option (TransactionOutpoint → Bool)) (b : BondBook) :
    (BondBook × List (Hash × EscrowClaim)) × List Hash :=
  let escrowed := i.escrows.foldl (admitEscrow warmupBurned) (b, [])
  (escrowed.1.purgeExpired burnable i.daa, escrowed.2)

/-- Resets the streaks of a list of served identities. -/
def resetAll (v2 : Bool) (served : List Hash) (s : BondBook × List (Hash × ℕ)) :
    BondBook × List (Hash × ℕ) :=
  served.foldl (resetServed v2) s

/-- Strikes a list of `(request, silent member)` pairs. -/
def strikeAll (daa : ℕ) (v2 : Bool) (isEstablished : Hash → Bool)
    (closings : List (Hash × Hash)) (s : BondBook × List ServiceMiss) :
    BondBook × List ServiceMiss :=
  closings.foldl (fun s p => strike daa v2 isEstablished p.1 s p.2) s

/-- Settles the trace of a block: resets of the served, strikes of the silent, resets of
those credited at an arming. Returns the bond book, the misses and the resets. -/
def settle (daa : ℕ) (v2 : Bool) (isEstablished : Hash → Bool) (t : BookTrace)
    (b : BondBook) : BondBook × List ServiceMiss × List (Hash × ℕ) :=
  let served := resetAll v2 t.credits (b, [])
  let struck := strikeAll daa v2 isEstablished t.closings (served.1, [])
  let armed := resetAll v2 t.armCredits (struck.1, served.2)
  (armed.1, struck.2, armed.2)

@[simp] theorem resetAll_append (v2 : Bool) (l l' : List Hash)
    (s : BondBook × List (Hash × ℕ)) :
    resetAll v2 (l ++ l') s = resetAll v2 l' (resetAll v2 l s) :=
  foldl_append

end BondBook

/-! ### The separation -/

section Separation

variable (c : LedgerConfig) (daa : ℕ) (bond : BondBook) (outcome : FoldOutcome) (warmup : Bool)

/-- The fold state a trace stands for while responses are folded. -/
def answeringState (warmup : Bool) (t : AnswerTrace) : FoldState :=
  let served := if warmup then (bond, []) else resetAll (c.v2At daa) t.credits (bond, [])
  { ledger := { toLedgerConfig := c, toRequestBook := t.book, toBondBook := served.1 }
    outcome := { outcome with
      misses := []
      resets := served.2
      rewards := if warmup then [] else t.rewards } }

/-- One response: the state follows the trace. -/
theorem response_answeringState (t : AnswerTrace) (resp : Hash × Option Hash) :
    (answeringState c daa bond outcome warmup t).response daa warmup resp
      = answeringState c daa bond outcome warmup (t.answer c daa resp) := by
  obtain ⟨rh, none | r⟩ := resp
  · rfl
  · cases warmup
    · simp only [answeringState, AnswerTrace.answer, resetAll_append]
      rfl
    · rfl

/-- The fold state a trace stands for while pending requests are visited. -/
def visitingState (warmup : Bool) (est : Hash → Bool) (t : BookTrace) : FoldState :=
  let served := if warmup then (bond, []) else resetAll (c.v2At daa) t.credits (bond, [])
  let struck := if warmup then (served.1, [])
    else strikeAll daa (c.v2At daa) est t.closings (served.1, [])
  { ledger := { toLedgerConfig := c, toRequestBook := t.book, toBondBook := struck.1 }
    outcome := { outcome with
      misses := struck.2
      resets := served.2
      rewards := if warmup then [] else t.rewards }
    servedAtArm := t.armCredits }

/-- The ceiling on early responses ends the answers and opens the visits. -/
theorem evict_answeringState (est : Hash → Bool) (t : AnswerTrace) :
    (answeringState c daa bond outcome warmup t).evict
      = visitingState c daa bond outcome warmup est t.evict := by
  simp only [FoldState.evict, answeringState, visitingState, AnswerTrace.evict,
    strikeAll, foldl_nil, ite_self]

/-- One visited request: the state follows the trace. -/
theorem visit_visitingState (est : Hash → Bool) (cohort : ℕ → List (Hash × Hash)) (t : BookTrace)
    (rh : Hash) :
    (visitingState c daa bond outcome warmup est t).visit daa warmup est cohort rh
      = visitingState c daa bond outcome warmup est (t.visit c daa cohort rh) := by
  cases warmup
  · simp only [FoldState.visit, visitingState, BookTrace.visit, FoldState.emitReward,
      strikeAll, foldl_append, foldl_map, Bool.false_eq_true, if_false]
  · rfl

end Separation

variable (L : ServiceLedger) (i : FoldInput) (cohort : ℕ → List (Hash × Hash))

/-- The fold once its requests and responses are in, as a state of the separated halves. -/
theorem evict_eq_visitingState (warmupBurned : Option (TransactionOutpoint → Bool))
    (est : Hash → Bool) :
    let opened := L.toBondBook.openBlock L.burnable i warmupBurned
    (i.responses.foldl (FoldState.response i.daa warmupBurned.isSome)
        { L.openBlock i warmupBurned with
          ledger := (L.openBlock i warmupBurned).ledger.admitRequests i }).evict
      = visitingState L.toLedgerConfig i.daa opened.1.1
          { sightings := opened.2, expired := opened.1.2 } warmupBurned.isSome est
          (L.toRequestBook.answerAll L.toLedgerConfig i) := by
  intro opened
  have hopen : ({ L.openBlock i warmupBurned with
        ledger := (L.openBlock i warmupBurned).ledger.admitRequests i } : FoldState)
      = answeringState L.toLedgerConfig i.daa opened.1.1
          { sightings := opened.2, expired := opened.1.2 } warmupBurned.isSome
          { book := L.toRequestBook.admitAll L.toLedgerConfig i } := by
    cases warmupBurned <;> rfl
  rw [hopen, foldl_hom _ (response_answeringState _ _ _ _ _),
    evict_answeringState _ _ _ _ _ est]
  rfl

/-- The fold as the close of a visited state of the separated halves. -/
theorem foldInner_eq_close (warmupBurned : Option (TransactionOutpoint → Bool))
    (est : Hash → Bool) :
    let opened := L.toBondBook.openBlock L.burnable i warmupBurned
    let closed := (visitingState L.toLedgerConfig i.daa opened.1.1
      { sightings := opened.2, expired := opened.1.2 } warmupBurned.isSome est
      (L.toRequestBook.replay L.toLedgerConfig i cohort)).close i.daa warmupBurned.isSome
    L.foldInner i warmupBurned est cohort = (closed.ledger, closed.outcome) := by
  simp only [ServiceLedger.foldInner]
  rw [evict_eq_visitingState L i warmupBurned est,
    foldl_hom _ (visit_visitingState _ _ _ _ _ _ _)]
  rfl

/-- **A normal fold** replays the request book and settles the trace on the bond book. -/
theorem foldInner_normal (est : Hash → Bool) :
    let opened := L.toBondBook.openBlock L.burnable i none
    let trace := L.toRequestBook.replay L.toLedgerConfig i cohort
    let settled := opened.1.1.settle i.daa (L.v2At i.daa) est trace
    L.foldInner i none est cohort
      = ({ toLedgerConfig := L.toLedgerConfig, toRequestBook := trace.book,
            toBondBook := settled.1 },
          { misses := settled.2.1, rewards := trace.rewards, resets := settled.2.2,
            sightings := opened.2, expired := opened.1.2 }) := by
  rw [foldInner_eq_close]
  rfl

/-- **A warmup fold** replays the request book and only opens the block on the bond book. -/
theorem foldInner_warmup (isBurned : TransactionOutpoint → Bool) (est : Hash → Bool) :
    let opened := L.toBondBook.openBlock L.burnable i (some isBurned)
    let trace := L.toRequestBook.replay L.toLedgerConfig i cohort
    L.foldInner i (some isBurned) est cohort
      = ({ toLedgerConfig := L.toLedgerConfig, toRequestBook := trace.book,
            toBondBook := opened.1.1 },
          { sightings := opened.2, expired := opened.1.2 }) := by
  rw [foldInner_eq_close]
  rfl

end KeryxNode
