import Mathlib.Data.List.TakeWhile
import KeryxNode.AuditRecord
import KeryxNode.StreakRecords

/-!
# Fairness of Audits

Who is struck when an audit closes. A run of folds opens the entry of a request, arms its audit over
the pairs `(identity, key)` of a cohort, and closes it; folds of either kind may lie between, only
the one that closes has to be a normal one, since a warmup fold reports nothing. A member of the
cohort is spared if one of its keys signed a response to the request, whichever of the blocks from
the opening to the closing one has folded it, or if the ledger held such a response when it opened
the entry. Any other member is missed once, unless its last strike, as its record has it, is too
recent; then neither its record nor its claims are touched.

## Main results

* `audit_fairness`: the misses of a run, by the responses folded.
-/

namespace KeryxNode

open ServiceMiss List OrdMap ServiceLedger

/-! ### The strikes of one closing -/

/-- Whether a miss is the one of a member on a request. -/
def ServiceMiss.isFor (rh id : Hash) (m : ServiceMiss) : Bool :=
  decide (m.requestHash = rh ∧ m.miner = id)

namespace BondBook

variable {daa : ℕ} {v2 : Bool} {est : Hash → Bool} {rh id : Hash}

/-- What the record and the claims of an identity are. -/
def standing (b : BondBook) (id : Hash) : Option StrikeEntry × Option (List EscrowClaim) :=
  (b.strikeState id, b.vault.get? id)

theorem vault_burn_of_ne (b : BondBook) {miner : Hash} (penalty : ServicePenalty)
    (hne : id ≠ miner) : (b.burn miner penalty).1.vault.get? id = b.vault.get? id := by
  unfold burn
  split
  · rfl
  · dsimp only
    split
    · exact get?_erase_of_ne _ hne
    · exact get?_insert_of_ne _ _ hne

/-- A strike on another leaves the standing of an identity alone. -/
theorem standing_strike_of_ne (s : BondBook × List ServiceMiss) {miner : Hash}
    (hne : id ≠ miner) : (strike daa v2 est rh s miner).1.standing id = s.1.standing id := by
  rcases strike_cases daa v2 est rh s miner with ⟨-, heq⟩ | ⟨hlimit, m, -, -, -, -, hstate⟩
  · rw [heq]
  · rw [standing, hstate, if_neg hne, (strike_vault daa v2 est rh s miner hlimit).1,
      vault_burn_of_ne _ _ hne]
    rfl

theorem rateLimited_of_standing {b b' : BondBook} (h : b.standing id = b'.standing id) :
    b.rateLimited daa id = b'.rateLimited daa id := by
  rw [rateLimited, rateLimited, show b.strikeState id = b'.strikeState id from
    congrArg Prod.fst h]

/-- The misses of a request a strike reports: one of its own miner, unless it is rate limited. -/
theorem countP_strike (s : BondBook × List ServiceMiss) (rh' miner : Hash) :
    (strike daa v2 est rh' s miner).2.countP (isFor rh id)
      = s.2.countP (isFor rh id)
        + if rh' = rh ∧ miner = id ∧ s.1.rateLimited daa miner = false then 1 else 0 := by
  cases hlimit : s.1.rateLimited daa miner with
  | true =>
    have hnot : ¬ (rh' = rh ∧ miner = id ∧ true = false) := fun h => (by cases h.2.2)
    rw [if_neg hnot]
    simp only [strike, hlimit, if_true, Nat.add_zero]
  | false =>
    rw [(strike_vault daa v2 est rh' s miner hlimit).2, countP_append, countP_singleton]
    simp only [isFor, decide_eq_true_eq, and_true]

/-- Closing another request reports no miss of this one. -/
theorem countP_foldl_strike_of_ne (silent : List Hash) (s : BondBook × List ServiceMiss)
    {rh' : Hash} (hne : rh' ≠ rh) :
    (silent.foldl (strike daa v2 est rh') s).2.countP (isFor rh id)
      = s.2.countP (isFor rh id) := by
  refine foldlRecOn _ _ (motive := fun s' : BondBook × List ServiceMiss =>
    s'.2.countP (isFor rh id) = s.2.countP (isFor rh id)) rfl ?_
  intro s' hs' miner _
  rw [countP_strike, if_neg fun h => hne h.1, Nat.add_zero, hs']

/-- The strikes on others leave the standing of an identity alone. -/
theorem standing_foldl_strike (silent : List Hash) (s : BondBook × List ServiceMiss)
    (h : id ∉ silent ∨ s.1.rateLimited daa id = true) :
    (silent.foldl (strike daa v2 est rh) s).1.standing id = s.1.standing id := by
  refine foldlRecOn _ _ (motive := fun s' : BondBook × List ServiceMiss =>
    s'.1.standing id = s.1.standing id) rfl ?_
  intro s' hs' miner hminer
  by_cases heq : id = miner
  · subst heq
    have hlimit : s'.1.rateLimited daa id = true := by
      rw [rateLimited_of_standing hs']
      exact h.resolve_left fun hnot => hnot hminer
    rw [strike, if_pos hlimit]
    exact hs'
  · rw [standing_strike_of_ne s' heq]
    exact hs'

/-- **One closing** reports a miss of each silent member that is not rate limited. -/
theorem countP_foldl_strike {silent : List Hash} (hnodup : silent.Nodup)
    (s : BondBook × List ServiceMiss) :
    (silent.foldl (strike daa v2 est rh) s).2.countP (isFor rh id)
      = s.2.countP (isFor rh id)
        + if id ∈ silent ∧ s.1.rateLimited daa id = false then 1 else 0 := by
  induction silent generalizing s with
  | nil => simp
  | cons miner silent ih =>
    obtain ⟨hnot, hnodup⟩ := nodup_cons.mp hnodup
    rw [foldl_cons, ih hnodup, countP_strike]
    by_cases heq : miner = id
    · subst heq
      simp only [hnot, false_and, if_false, Nat.add_zero, true_and, mem_cons_self]
    · have hlimit : (strike daa v2 est rh s miner).1.rateLimited daa id
          = s.1.rateLimited daa id :=
        rateLimited_of_standing (standing_strike_of_ne s (Ne.symm heq))
      simp only [hlimit, heq, Ne.symm heq, false_and, and_false, if_false, Nat.add_zero,
        mem_cons, false_or]

end BondBook

/-! ### Folds of a run -/

/-- One fold of a run: a warmup fold if it is given the burned outpoints. -/
structure LedgerFold extends FoldCall where
  warmupBurned : Option (TransactionOutpoint → Bool) := none

namespace LedgerFold

def daa (f : LedgerFold) : ℕ := f.input.daa

/-- The visit of a pending request in this fold. -/
def visit (f : LedgerFold) : FoldState → Hash → FoldState :=
  FoldState.visit f.input.daa f.warmupBurned.isSome f.isEstablished f.cohort

end LedgerFold

namespace ServiceLedger

variable (L : ServiceLedger) (f : LedgerFold)

/-- Folds one block of a run. -/
def apply (L : ServiceLedger) (f : LedgerFold) : ServiceLedger × FoldOutcome :=
  L.foldInner f.input f.warmupBurned f.isEstablished f.cohort

/-- The ledger after the folds of a run. -/
def after (L : ServiceLedger) (folds : List LedgerFold) : ServiceLedger :=
  folds.foldl (fun L f => (L.apply f).1) L

/-- The fold once its requests and responses are in. -/
def answered (L : ServiceLedger) (f : LedgerFold) : FoldState :=
  let opened := L.openBlock f.input f.warmupBurned
  let admitted := { opened with ledger := opened.ledger.admitRequests f.input }
  (f.input.responses.foldl (FoldState.response f.input.daa f.warmupBurned.isSome) admitted).evict

/-- The fold when its visits of the pending requests reach `rh`. -/
def reaching (L : ServiceLedger) (f : LedgerFold) (rh : Hash) : FoldState :=
  ((L.answered f).ledger.pending.keys.takeWhile fun k => decide (k ≠ rh)).foldl f.visit
    (L.answered f)

/-- A fold opens the entry of a request: it is not pending once the expired ones are forgotten, and
pending after the fold. -/
def Opens (L : ServiceLedger) (f : LedgerFold) (rh : Hash) : Prop :=
  (L.toRequestBook.expire L.toLedgerConfig f.daa).pending.get? rh = none ∧
    ((L.apply f).1.pending.get? rh).isSome = true

/-- The keys of the answers held for a request when a fold admits its own requests. -/
def heldFor (L : ServiceLedger) (f : LedgerFold) (rh : Hash) : List Hash :=
  (((L.toRequestBook.expire L.toLedgerConfig f.daa).earlyResponses.get? rh).map Prod.snd).getD []

/-- A fold arms the audit of the entry of `rh` accepted at `s`, over the pairs of a cohort. -/
def Arms (L : ServiceLedger) (f : LedgerFold) (rh : Hash) (s : ℕ) (set : List (Hash × Hash)) :
    Prop :=
  ∃ req, (L.reaching f rh).ledger.pending.get? rh = some req ∧ req.acceptedDaa = s ∧ s < f.daa ∧
    req.audit = none ∧ f.cohort req.tier = set ∧ set ≠ []

/-- A normal fold closes the audit of the entry of `rh` accepted at `s`. -/
def Closes (L : ServiceLedger) (f : LedgerFold) (rh : Hash) (s : ℕ) : Prop :=
  f.warmupBurned = none ∧ ∃ req a, (L.reaching f rh).ledger.pending.get? rh = some req ∧
    req.acceptedDaa = s ∧ req.audit = some a ∧ a.windowEndDaa < f.daa

/-- A fold of either kind replays the request book. -/
theorem book_apply :
    (L.apply f).1.toRequestBook
      = (L.toRequestBook.replay L.toLedgerConfig f.input f.cohort).book := by
  rw [apply]
  cases f.warmupBurned with
  | none => rw [foldInner_normal]
  | some isBurned => rw [foldInner_warmup]

theorem not_mem_takeWhile (rh : Hash) (keys : List Hash) :
    rh ∉ keys.takeWhile fun k => decide (k ≠ rh) := by
  intro hmem
  have hne := mem_takeWhile_imp hmem
  simp at hne

/-- The visits before `rh` leave its cell as the responses have it. -/
theorem cell_reaching (rh : Hash) :
    (L.reaching f rh).ledger.toRequestBook.cell rh
      = (L.toRequestBook.answerAll L.toLedgerConfig f.input).book.cell rh := by
  have hanswered : L.answered f = _ :=
    evict_eq_visitingState L f.input f.warmupBurned f.isEstablished
  rw [reaching, hanswered]
  set keys := (visitingState _ _ _ _ _ _ _).ledger.pending.keys
  rw [LedgerFold.visit, foldl_hom _ (visit_visitingState _ _ _ _ _ _ _)]
  have hnodup : (keys.takeWhile fun k => decide (k ≠ rh)).Nodup :=
    (nodup_keys _).sublist (takeWhile_sublist _)
  exact (RequestBook.cell_visits f.cohort rh hnodup _).trans
    (if_neg (not_mem_takeWhile rh keys))

/-- The visits of a fold, up to the one of a pending request, that one, and the others. -/
theorem keys_split {L : ServiceLedger} {f : LedgerFold} {rh : Hash} {req : PendingRequest}
    (hreq : (L.reaching f rh).ledger.pending.get? rh = some req) :
    ∃ later : List Hash, rh ∉ later ∧
      (L.answered f).ledger.pending.keys.foldl f.visit (L.answered f)
      = later.foldl f.visit (f.visit (L.reaching f rh) rh) := by
  have hanswered : (L.answered f).ledger.pending.get? rh = some req := by
    have hbook : (L.answered f).ledger.toRequestBook
        = (L.toRequestBook.answerAll L.toLedgerConfig f.input).book := by
      rw [answered, evict_eq_visitingState L f.input f.warmupBurned f.isEstablished]
      rfl
    have hcell := congrArg Prod.fst (cell_reaching L f rh)
    rw [← hbook] at hcell
    exact hcell.symm.trans hreq
  have hmem := mem_keys_iff.mpr ⟨req, hanswered⟩
  obtain ⟨earlier, later, hkeys⟩ := append_of_mem hmem
  have hnodup := nodup_keys (L.answered f).ledger.pending
  rw [hkeys] at hnodup
  have hearlier : ∀ k ∈ earlier, decide (k ≠ rh) = true := by
    intro k hk
    refine decide_eq_true fun heq => ?_
    exact (nodup_append.mp hnodup).2.2 k hk rh mem_cons_self heq
  refine ⟨later, (nodup_cons.mp (nodup_append.mp hnodup).2.1).1, ?_⟩
  have htake : (L.answered f).ledger.pending.keys.takeWhile (fun k => decide (k ≠ rh))
      = earlier := by
    rw [hkeys, takeWhile_append_of_pos hearlier, takeWhile_cons_of_neg (by simp),
      append_nil]
  rw [reaching, htake, hkeys, foldl_append, foldl_cons]

variable {L : ServiceLedger} {f : LedgerFold} {rh id : Hash}

section

variable (hnormal : f.warmupBurned = none)
include hnormal

/-- The misses after a visit of a normal fold. -/
theorem misses_visit (s : FoldState) (rh' : Hash) :
    let silent := (s.ledger.toRequestBook.closeOrArm s.ledger.toLedgerConfig f.daa f.cohort
      rh').silent
    let struck := silent.foldl (BondBook.strike f.daa (s.ledger.v2At f.daa) f.isEstablished rh')
      (s.ledger.toBondBook, s.outcome.misses)
    (f.visit s rh').ledger.toBondBook = struck.1 ∧ (f.visit s rh').outcome.misses = struck.2 := by
  simp only [LedgerFold.visit, hnormal]
  exact ⟨rfl, rfl⟩

theorem countP_visits_of_not_mem (s : FoldState) {keys : List Hash} (hnot : rh ∉ keys) :
    (keys.foldl f.visit s).outcome.misses.countP (isFor rh id)
      = s.outcome.misses.countP (isFor rh id) := by
  refine foldlRecOn _ _ (motive := fun s' : FoldState =>
    s'.outcome.misses.countP (isFor rh id)
      = s.outcome.misses.countP (isFor rh id)) rfl ?_
  intro s' hs' rh' hrh'
  have hne : rh' ≠ rh := fun heq => hnot (heq ▸ hrh')
  rw [(misses_visit hnormal s' rh').2, BondBook.countP_foldl_strike_of_ne _ _ hne, hs']

/-- **The misses a closing fold reports for one member**: one if the audit found it silent and the
visit of the request finds it not rate limited. A rate limited or served member keeps its record
and its claims. -/
theorem countP_apply {req : PendingRequest} {a : Audit}
    (hreq : (L.reaching f rh).ledger.pending.get? rh = some req) (haudit : req.audit = some a)
    (hclosed : a.windowEndDaa < f.daa) (hnodup : a.silent.Nodup) :
    (L.apply f).2.misses.countP (isFor rh id)
        = (if id ∈ a.silent ∧ (L.reaching f rh).ledger.rateLimited f.daa id = false then 1
          else 0) ∧
      (id ∉ a.silent ∨ (L.reaching f rh).ledger.rateLimited f.daa id = true →
        (f.visit (L.reaching f rh) rh).ledger.toBondBook.standing id
          = (L.reaching f rh).ledger.toBondBook.standing id) := by
  have hsilent : ((L.reaching f rh).ledger.toRequestBook.closeOrArm
      (L.reaching f rh).ledger.toLedgerConfig f.daa f.cohort rh).silent = a.silent := by
    simp only [RequestBook.closeOrArm, hreq, haudit, if_pos hclosed]
  obtain ⟨hbonds, hmisses⟩ := misses_visit hnormal (L.reaching f rh) rh
  rw [hsilent] at hbonds hmisses
  constructor
  · have hstart : (L.reaching f rh).outcome.misses.countP (isFor rh id) = 0 := by
      rw [reaching, countP_visits_of_not_mem hnormal _ (not_mem_takeWhile rh _), answered,
        evict_eq_visitingState L f.input f.warmupBurned f.isEstablished, hnormal]
      rfl
    obtain ⟨later, hnot, hvisits⟩ := keys_split hreq
    have hclose : (L.apply f).2.misses
        = ((L.answered f).ledger.pending.keys.foldl f.visit (L.answered f)).outcome.misses := by
      change (((L.answered f).ledger.pending.keys.foldl f.visit (L.answered f)).close
        f.input.daa f.warmupBurned.isSome).outcome.misses = _
      rw [hnormal]
      rfl
    rw [hclose, hvisits, countP_visits_of_not_mem hnormal _ hnot, hmisses,
      BondBook.countP_foldl_strike hnodup, hstart, Nat.zero_add]
  · intro h
    rw [hbonds]
    exact BondBook.standing_foldl_strike _ _ h

end

@[simp] theorem after_append (folds folds' : List LedgerFold) :
    L.after (folds ++ folds') = (L.after folds).after folds' :=
  foldl_append

@[simp] theorem after_cons (folds : List LedgerFold) :
    L.after (f :: folds) = (L.apply f).1.after folds :=
  rfl

end ServiceLedger

/-! ### Runs -/

/-- A response to `rh` under a key is folded in one of the blocks. -/
def HeardIn (rh : Hash) (folds : List LedgerFold) (key : Hash) : Prop :=
  ∃ f ∈ folds, (rh, some key) ∈ f.input.responses

instance (rh : Hash) (folds : List LedgerFold) (key : Hash) : Decidable (HeardIn rh folds key) :=
  inferInstanceAs (Decidable (∃ f ∈ folds, (rh, some key) ∈ f.input.responses))

theorem heardIn_append {rh key : Hash} {folds folds' : List LedgerFold} :
    HeardIn rh (folds ++ folds') key ↔ HeardIn rh folds key ∨ HeardIn rh folds' key := by
  simp only [HeardIn, mem_append, or_and_right, exists_or]

theorem heardIn_cons {rh key : Hash} {f : LedgerFold} {folds : List LedgerFold} :
    HeardIn rh (f :: folds) key ↔ (rh, some key) ∈ f.input.responses ∨ HeardIn rh folds key := by
  simp only [HeardIn, mem_cons, or_and_right, exists_or, exists_eq_left]

theorem not_heardIn_nil {rh key : Hash} : ¬ HeardIn rh [] key := by
  rintro ⟨f, hf, -⟩
  cases hf

/-- The life of an audit in a run of folds of increasing scores: a fold opens the entry of the
request, a later one arms its audit over the pairs of a cohort, a normal one closes it. -/
structure AuditLife (L : ServiceLedger) (rh : Hash) (before : List LedgerFold)
    (opening : LedgerFold) (waiting : List LedgerFold) (arming : LedgerFold)
    (running : List LedgerFold) (closing : LedgerFold) (set : List (Hash × Hash)) : Prop where
  increasing : (before ++ opening :: (waiting ++ arming :: (running ++ [closing]))).Pairwise
    fun f g => f.daa < g.daa
  opens : (L.after before).Opens opening rh
  arms : (L.after (before ++ opening :: waiting)).Arms arming rh opening.daa set
  closes : (L.after (before ++ opening :: (waiting ++ arming :: running))).Closes closing rh
    opening.daa

namespace Follows

open ServiceLedger

variable {s : ℕ} {rh : Hash} {L : ServiceLedger} {heard : Hash → Prop} {folds : List LedgerFold}

/-- A record that a later block keeps is kept by the folds of a run. -/
theorem after {P : (Hash → Prop) → PendingRequest → Option (ℕ × List Hash) → Prop} (hP : Phase P)
    (h : Follows s (P heard) rh L.toRequestBook) (hfolds : ∀ f ∈ folds, s < f.daa) :
    Follows s (P fun key => heard key ∨ HeardIn rh folds key) rh (L.after folds).toRequestBook := by
  induction folds generalizing L heard with
  | nil =>
    refine fun req hreq hs => hP.congr (h req hreq hs) fun key => ?_
    rw [or_iff_left not_heardIn_nil]
  | cons f folds ih =>
    have hone : Follows s (P fun key => heard key ∨ (rh, some key) ∈ f.input.responses) rh
        (L.apply f).1.toRequestBook := by
      rw [book_apply]
      exact h.replay hP (hfolds f mem_cons_self)
    have hrest := ih hone fun g hg => hfolds g (mem_cons_of_mem _ hg)
    refine fun req hreq hs => hP.congr (hrest req hreq hs) fun key => ?_
    rw [heardIn_cons, or_assoc]

end Follows

/-- The folds of a run hold the keys held at its start and those of their own responses. -/
theorem HeldFrom.after {K : Hash → Prop} {rh : Hash} {L : ServiceLedger}
    (h : HeldFrom K rh L.toRequestBook) (folds : List LedgerFold) :
    HeldFrom (fun key => K key ∨ HeardIn rh folds key) rh (L.after folds).toRequestBook := by
  induction folds generalizing L K with
  | nil => exact fun e he key hkey => .inl (h e he key hkey)
  | cons f folds ih =>
    have hone := h.replay (i := f.input) (c := L.toLedgerConfig) f.cohort
    rw [← book_apply] at hone
    intro e he key hkey
    rw [heardIn_cons, ← or_assoc]
    exact ih hone e he key hkey

variable {L : ServiceLedger} {rh : Hash} {before waiting running : List LedgerFold}
  {opening arming closing : LedgerFold} {set : List (Hash × Hash)}

/-- **When it is armed**, an audit tracks the keys that were held at the opening and those of every
response since. -/
theorem ServiceLedger.Arms.tracks
    (harms : (L.after (opening :: waiting)).Arms arming rh opening.daa set)
    (hopens : L.Opens opening rh) (hwaiting : ∀ f ∈ waiting, opening.daa < f.daa) :
    ∃ req a, ((L.after (opening :: waiting)).apply arming).1.pending.get? rh = some req ∧
      req.audit = some a ∧ Tracks set (fun key => key ∈ L.heldFor opening rh ∨
        HeardIn rh (opening :: (waiting ++ [arming])) key) a := by
  have hopened : Follows opening.daa (Waiting fun key =>
      key ∈ L.heldFor opening rh ∨ (rh, some key) ∈ opening.input.responses) rh
      (L.apply opening).1.toRequestBook := by
    rw [book_apply]
    exact .opened hopens.1
  obtain ⟨req, hreq, hs, hlater, haudit, rfl, hset⟩ := harms
  have hcell := cell_reaching (L.after (opening :: waiting)) arming rh
  obtain ⟨req', a, hget, haudit', htracks⟩ :=
    ((hopened.after waiting_phase hwaiting).answerAll waiting_phase hlater).arm
      ((congrArg Prod.fst hcell).symm.trans hreq) hs haudit hlater hset
  rw [← after_cons, ← book_apply] at hget
  refine ⟨req', a, hget, haudit', htracks.congr fun key => ?_⟩
  simp only [heardIn_cons, heardIn_append, or_iff_left not_heardIn_nil, or_assoc]

/-- **When its request is visited for the last time**, the audit tracks the keys that were held at
the opening and those of every response since. -/
theorem AuditLife.tracks
    (life : AuditLife L rh before opening waiting arming running closing set) :
    ∃ req a, ((L.after (before ++ opening :: (waiting ++ arming :: running))).reaching closing
        rh).ledger.pending.get? rh = some req ∧ req.audit = some a ∧ a.windowEndDaa < closing.daa ∧
      Tracks set (fun key => key ∈ (L.after before).heldFor opening rh ∨
        HeardIn rh (opening :: (waiting ++ arming :: (running ++ [closing]))) key) a := by
  have hlater := (pairwise_cons.mp (pairwise_append.mp life.increasing).2.1).1
  have harms := life.arms
  rw [after_append] at harms
  obtain ⟨req, a, hreq, haudit, htracks⟩ := harms.tracks life.opens fun f hf =>
    hlater f (mem_append_left _ hf)
  have harmed : Follows opening.daa (Armed set _) rh _ := fun req' hreq' _ => by
    obtain rfl := Option.mem_unique hreq hreq'
    exact ⟨a, haudit, htracks⟩
  have hran := harmed.after (armed_phase _) fun f (hf : f ∈ running) =>
    hlater f (mem_append_right _ (mem_cons_of_mem _ (mem_append_left _ hf)))
  obtain ⟨-, req', a', hreq', hs', haudit', hclosed⟩ := life.closes
  refine ⟨req', a', hreq', haudit', hclosed, ?_⟩
  simp only [after_append, after_cons] at hreq'
  obtain ⟨_, ha', htracks'⟩ := hran.answerAll (armed_phase _)
    (hlater closing (by simp)) req'
    ((congrArg Prod.fst (cell_reaching _ closing rh)).symm.trans hreq') hs'
  obtain rfl := Option.mem_unique haudit' ha'
  refine htracks'.congr fun key => ?_
  simp only [heardIn_cons, heardIn_append, or_iff_left not_heardIn_nil, or_assoc]

/-- The keys held for a request at its opening were held at the start of the run or are those of
responses folded before. -/
theorem mem_heldFor {key : Hash} (hkey : key ∈ (L.after before).heldFor opening rh) :
    (∃ e, L.earlyResponses.get? rh = some e ∧ key ∈ e.2) ∨ HeardIn rh before key := by
  have hstart : HeldFrom (fun key => ∃ e, L.earlyResponses.get? rh = some e ∧ key ∈ e.2) rh
      L.toRequestBook := fun e he key hkey => ⟨e, he, hkey⟩
  have hheld := (hstart.after before).expire (L.after before).toLedgerConfig opening.daa
  rw [heldFor] at hkey
  cases hget : ((L.after before).toRequestBook.expire (L.after before).toLedgerConfig
      opening.daa).earlyResponses.get? rh with
  | none => rw [hget] at hkey; cases hkey
  | some e =>
    rw [hget] at hkey
    exact hheld e hget key hkey

theorem rateLimited_iff {b : BondBook} {daa : ℕ} {id : Hash} :
    b.rateLimited daa id = true ↔ ∃ e, b.strikeState id = some e ∧ 0 < e.lastDaa ∧
      daa < e.lastDaa + serviceStrikeIntervalDaa := by
  rw [BondBook.rateLimited]
  cases b.strikeState id <;> simp

/-- **Audits are fair.** When a fold closes an audit, a member of its cohort one of whose keys was
heard, from the opening block to the closing one or held before, is not missed. Any other member
is missed exactly once, unless its record has a strike inside the interval; then it is not missed,
and the visit leaves its record and its claims as they are. A key held before was folded before. -/
theorem audit_fairness
    (life : AuditLife L rh before opening waiting arming running closing set) {id own : Hash}
    (hid : (id, own) ∈ set) :
    let ledger := L.after (before ++ opening :: (waiting ++ arming :: running))
    let reached := ledger.reaching closing rh
    let served := ∃ key, (id, key) ∈ set ∧ (key ∈ (L.after before).heldFor opening rh ∨
      HeardIn rh (opening :: (waiting ++ arming :: (running ++ [closing]))) key)
    let recent := ∃ e, reached.ledger.strikeState id = some e ∧ 0 < e.lastDaa ∧
      closing.daa < e.lastDaa + serviceStrikeIntervalDaa
    let misses := (ledger.apply closing).2.misses.countP (isFor rh id)
    (served → misses = 0) ∧ (¬ served → ¬ recent → misses = 1) ∧
      (¬ served → recent → misses = 0 ∧
        (closing.visit reached rh).ledger.toBondBook.standing id
          = reached.ledger.toBondBook.standing id) ∧
      ∀ key ∈ (L.after before).heldFor opening rh,
        (∃ e, L.earlyResponses.get? rh = some e ∧ key ∈ e.2) ∨ HeardIn rh before key := by
  intro ledger reached served recent misses
  obtain ⟨req, a, hreq, haudit, hclosed, htracks⟩ := life.tracks
  obtain ⟨hcount, hstanding⟩ := @ServiceLedger.countP_apply ledger closing rh id life.closes.1
    req a hreq haudit hclosed htracks.nodup_silent
  have hsilent : id ∈ a.silent ↔ ¬ served := by
    rw [htracks.mem_silent, and_iff_right ⟨own, hid⟩]
  have hrecent : reached.ledger.rateLimited closing.daa id = true ↔ recent := rateLimited_iff
  refine ⟨fun hserved => ?_, fun hnot hfree => ?_, fun hnot hlimited => ⟨?_, ?_⟩,
    fun key => mem_heldFor⟩
  · exact hcount.trans (if_neg fun h => hsilent.mp h.1 hserved)
  · exact hcount.trans (if_pos ⟨hsilent.mpr hnot, Bool.eq_false_iff.mpr (mt hrecent.mp hfree)⟩)
  · refine hcount.trans (if_neg fun h => ?_)
    exact Bool.eq_false_iff.mp h.2 (hrecent.mpr hlimited)
  · exact hstanding (.inr (hrecent.mpr hlimited))

/-- A block with some requests, and responses signed by the key of the first of two miners. -/
def testFold (daa : ℕ) (requests responses : List Hash) : LedgerFold where
  input := { daa, requests := requests.map fun rh => (rh, 0, 256)
             responses := responses.map fun rh => (rh, some 1) }
  isEstablished := fun _ => true
  cohort := fun _ => [(1, 1), (2, 2)]

/-- A request answered by one of two miners in the block that accepts it. -/
theorem testFold_life :
    AuditLife {} 7 [] (testFold 100 [7] [7]) [] (testFold 101 [] []) [] (testFold 914 [] [])
      [(1, 1), (2, 2)] where
  increasing := by decide
  opens := ⟨by decide +kernel, by decide +kernel⟩
  arms := ⟨⟨0, 256, 100, 0, none, none, [1]⟩, by decide +kernel, rfl, by decide, rfl, rfl,
    by decide⟩
  closes := ⟨rfl, ⟨0, 256, 100, 0, none, some ⟨[1, 2], [(1, 1), (2, 2)], [1], 913⟩, []⟩, _,
    by decide +kernel, rfl, rfl, by decide⟩

/-- The other one is missed. -/
theorem audit_fairness_silent_member :
    ((({} : ServiceLedger).after [testFold 100 [7] [7], testFold 101 [] []]).apply
      (testFold 914 [] [])).2.misses.countP (ServiceMiss.isFor 7 2) = 1 := by
  have hmember : ((2 : Hash), (2 : Hash)) ∈ [((1 : Hash), (1 : Hash)), (2, 2)] := by decide
  refine (audit_fairness testFold_life hmember).2.1 ?_ ?_
  · rintro ⟨key, hpair, hheard⟩
    obtain rfl : key = 2 := by simpa using hpair
    revert hheard
    decide +kernel
  · rintro ⟨e, hstate, -⟩
    have hnone : ((({} : ServiceLedger).after [testFold 100 [7] [7], testFold 101 [] []]).reaching
        (testFold 914 [] []) 7).ledger.strikeState 2 = none := by decide +kernel
    cases hnone.symm.trans hstate

/-- A request whose answer is accepted before it. -/
theorem testFold_life_early :
    AuditLife {} 7 [testFold 100 [] [7]] (testFold 102 [7] []) [] (testFold 103 [] []) []
      (testFold 916 [] []) [(1, 1), (2, 2)] where
  increasing := by decide
  opens := ⟨by decide +kernel, by decide +kernel⟩
  arms := ⟨⟨0, 256, 102, 0, none, none, [1]⟩, by decide +kernel, rfl, by decide, rfl, rfl,
    by decide⟩
  closes := ⟨rfl, ⟨0, 256, 102, 0, none, some ⟨[1, 2], [(1, 1), (2, 2)], [1], 915⟩, []⟩, _,
    by decide +kernel, rfl, rfl, by decide⟩

/-- A miner silent on a first request and on a third, with a second one served between. -/
theorem testFold_life_served :
    AuditLife {} 9 [testFold 100 [7] [], testFold 101 [] [], testFold 914 [] [],
        testFold 915 [8] [8], testFold 916 [] []] (testFold 917 [9] []) [] (testFold 918 [] []) []
      (testFold 1731 [] []) [(1, 1), (2, 2)] where
  increasing := by decide
  opens := ⟨by decide +kernel, by decide +kernel⟩
  arms := ⟨⟨0, 256, 917, 0, none, none, []⟩, by decide +kernel, rfl, by decide, rfl, rfl,
    by decide⟩
  closes := ⟨rfl, ⟨0, 256, 917, 0, none, some ⟨[1, 2], [(1, 1), (2, 2)], [], 1730⟩, []⟩, _,
    by decide +kernel, rfl, rfl, by decide⟩

/-- Nothing is heard in blocks without responses. -/
theorem not_heardIn_testFold {rh key : Hash} {blocks : List (ℕ × List Hash)} :
    ¬ HeardIn rh (blocks.map fun b => testFold b.1 b.2 []) key := by
  rintro ⟨f, hf, hresponse⟩
  obtain ⟨b, -, rfl⟩ := mem_map.mp hf
  cases hresponse

/-- Two audits that look unfair. In the first no response is folded from the opening block on and
the miner was never struck, but it is not missed: its answer came before the request. In the second
the miner was struck 817 scores before and is missed again: before the v2 gate, the request it
served between has cleared the score of its last strike. -/
theorem audit_fairness_exceptions :
    (AuditLife {} 7 [testFold 100 [] [7]] (testFold 102 [7] []) [] (testFold 103 [] []) []
        (testFold 916 [] []) [(1, 1), (2, 2)] ∧
      (∀ key, ¬ HeardIn 7 [testFold 102 [7] [], testFold 103 [] [], testFold 916 [] []] key) ∧
      ((({} : ServiceLedger).after [testFold 100 [] [7], testFold 102 [7] [],
        testFold 103 [] []]).reaching (testFold 916 [] []) 7).ledger.strikeState 1 = none ∧
      ((({} : ServiceLedger).after [testFold 100 [] [7], testFold 102 [7] [],
        testFold 103 [] []]).apply (testFold 916 [] [])).2.misses.countP
          (ServiceMiss.isFor 7 1) = 0) ∧
    (AuditLife {} 9 [testFold 100 [7] [], testFold 101 [] [], testFold 914 [] [],
        testFold 915 [8] [8], testFold 916 [] []] (testFold 917 [9] []) [] (testFold 918 [] []) []
        (testFold 1731 [] []) [(1, 1), (2, 2)] ∧
      (∀ key, ¬ HeardIn 9 [testFold 917 [9] [], testFold 918 [] [], testFold 1731 [] []] key) ∧
      ((({} : ServiceLedger).after [testFold 100 [7] [], testFold 101 [] []]).apply
        (testFold 914 [] [])).2.misses.countP (ServiceMiss.isFor 7 1) = 1 ∧
      1731 < 914 + serviceStrikeIntervalDaa ∧
      ((({} : ServiceLedger).after [testFold 100 [7] [], testFold 101 [] [], testFold 914 [] [],
        testFold 915 [8] [8], testFold 916 [] [], testFold 917 [9] [],
        testFold 918 [] []]).apply (testFold 1731 [] [])).2.misses.countP
          (ServiceMiss.isFor 9 1) = 1) := by
  refine ⟨⟨testFold_life_early, fun key => ?_, by decide +kernel, by decide +kernel⟩,
    testFold_life_served, fun key => ?_, by decide +kernel, by decide, by decide +kernel⟩
  · exact @not_heardIn_testFold 7 key [(102, [7]), (103, []), (916, [])]
  · exact @not_heardIn_testFold 9 key [(917, [9]), (918, []), (1731, [])]

end KeryxNode
