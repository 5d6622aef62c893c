import KeryxNode.ServiceStores

/-!
# Suspension Verdicts

An executed third strike suspends a producer over the window that starts when the strike
becomes finality-deep. The node keeps one deadline per identity, overwritten by each later
suspension, and derives the whole window from it. A verdict about an old point of view is
therefore right exactly as long as no later suspension has overwritten the one that covered
it.

## Main results

* `suspension_verdict_iff`: the verdict after a flush agrees with the one of a node that had
  flushed only what was final at the point of view, and with the windows of the suspensions
  themselves, exactly when the last suspension was final there or no window covers it.
* `suspension_verdict_overwritten`: two suspensions, the second final after the first window
  opened: the verdict about a block inside the first window is lost.
-/

namespace KeryxNode

open List FlushState Option

variable (N : Network) (id : Hash)

/-- The score of a queued event if it is an executed suspension of `id`. -/
def QueuedEvent.suspendDaa? (q : QueuedEvent) : Option ℕ :=
  match q.event with
  | .miss m => if m.miner = id ∧ m.penalty = .suspend then some q.daa else none
  | _ => none

/-- The scores of the executed suspensions of `id`, in flush order. -/
def suspendDaas (events : List QueuedEvent) : List ℕ :=
  events.filterMap (QueuedEvent.suspendDaa? id)

/-- A node that has flushed nothing. -/
def FlushState.fresh : FlushState :=
  { stores := {}, mirrors := {}, deepCursorDaa := 0 }

/-- The suspension window of a strike at `d` covers `pov`. -/
def coveredAt (d pov : ℕ) : Prop :=
  d + N.finalityDepth ≤ pov ∧ pov < d + N.finalityDepth + serviceSuspensionDaa

instance (d pov : ℕ) : Decidable (coveredAt N d pov) :=
  inferInstanceAs (Decidable (_ ∧ _))

/-! ### The deadline after a flush -/

namespace FlushState

variable (daa : ℕ) (s : FlushState)

/-- The deadline of a strike at `d`. -/
def deadline (d : ℕ) : ℕ :=
  d + N.finalityDepth + serviceSuspensionDaa

@[simp] theorem suspended_burnClaim (c : EscrowClaim) :
    (s.burnClaim daa c).mirrors.suspended = s.mirrors.suspended := by
  simp only [burnClaim]
  split <;> rfl

theorem suspended_burnClaims (l : List EscrowClaim) (s : FlushState) :
    (l.foldl (burnClaim daa) s).mirrors.suspended = s.mirrors.suspended := by
  induction l generalizing s with
  | nil => rfl
  | cons c l ih => rw [foldl_cons, ih, suspended_burnClaim]

@[simp] theorem suspended_logStrike (miner : Hash) (e : StrikeEntry) (s : FlushState) :
    (s.logStrike daa miner e).mirrors.suspended = s.mirrors.suspended := by
  simp only [logStrike]
  split <;> rfl

/-- One event moves the deadline of `id` exactly if it is an executed suspension of it. -/
theorem get?_suspended_flushEvent (q : QueuedEvent) :
    (s.flushEvent N q.daa q.event).mirrors.suspended.get? id
      = ((q.suspendDaa? id).map (deadline N)).or (s.mirrors.suspended.get? id) := by
  obtain ⟨index, daa, event⟩ := q
  cases event with
  | sighting miner =>
    simp only [flushEvent, flushSighting]
    split <;> rfl
  | reset miner preserved => simp [flushEvent, QueuedEvent.suspendDaa?]
  | reward r =>
    simp only [flushEvent, flushReward]
    split <;> rfl
  | miss m =>
    simp only [flushEvent, flushMiss, QueuedEvent.suspendDaa?]
    by_cases hp : m.penalty = .suspend
    · simp only [hp, if_true, OrdMap.get?_insert, suspended_logStrike, suspended_burnClaims,
        and_true, eq_comm (a := id)]
      split <;> rfl
    · simp [hp, suspended_burnClaims]

@[simp] theorem suspended_sealPrevious :
    (s.sealPrevious N daa).mirrors.suspended = s.mirrors.suspended := by
  unfold sealPrevious
  split
  · rfl
  · split <;> rfl

@[simp] theorem suspended_finish :
    (s.finish N).mirrors.suspended = s.mirrors.suspended := by
  unfold finish
  split <;> rfl

theorem get?_suspended_step (q : QueuedEvent) :
    (s.step N q).mirrors.suspended.get? id
      = ((q.suspendDaa? id).map (deadline N)).or (s.mirrors.suspended.get? id) := by
  have h := get?_suspended_flushEvent N id
    { s.sealPrevious N q.daa with sealingDaa := some q.daa } q
  simp only [suspended_sealPrevious] at h
  exact h

theorem get?_suspended_steps (events : List QueuedEvent) (s : FlushState) :
    (events.foldl (step N) s).mirrors.suspended.get? id
      = ((suspendDaas id events).getLast?.map (deadline N)).or (s.mirrors.suspended.get? id) := by
  induction events generalizing s with
  | nil => rfl
  | cons q events ih =>
    rw [foldl_cons, ih, get?_suspended_step]
    cases hq : q.suspendDaa? id with
    | none => simp only [suspendDaas, filterMap_cons, hq, map_none, none_or]
    | some d =>
      have hcons : suspendDaas id (q :: events) = d :: suspendDaas id events := by
        simp only [suspendDaas, filterMap_cons, hq]
      rw [hcons, getLast?_cons]
      cases (suspendDaas id events).getLast? <;> rfl

/-- After a flush the deadline of an identity is that of its last suspension. -/
theorem get?_suspended_flush (events : List QueuedEvent) :
    ((fresh.flush N events).mirrors.suspended.get? id)
      = (suspendDaas id events).getLast?.map (deadline N) := by
  rw [flush, suspended_finish, get?_suspended_steps]
  simp [fresh]

end FlushState

/-! ### Verdicts -/

/-- The verdict read off the last suspension. -/
theorem isProducerSuspended_flush (events : List QueuedEvent) (pov : ℕ) :
    (fresh.flush N events).mirrors.isProducerSuspended id pov = true
      ↔ ∃ d, (suspendDaas id events).getLast? = some d ∧ coveredAt N d pov := by
  rw [ServiceMirrors.isProducerSuspended, get?_suspended_flush]
  cases (suspendDaas id events).getLast? with
  | none => simp
  | some d =>
    rw [Option.map_some, Option.any_some, decide_eq_true_eq, deadline, Nat.add_sub_cancel]
    exact ⟨fun h => ⟨d, rfl, h⟩, fun ⟨_, hd, h⟩ => Option.some.inj hd ▸ h⟩

/-- In an increasing list the last entry is the greatest. -/
theorem le_getLast_of_pairwise {l : List ℕ} {d : ℕ} (h : l.Pairwise (· < ·))
    (hl : l.getLast? = some d) : ∀ x ∈ l, x ≤ d := by
  intro x hx
  obtain ⟨ys, rfl⟩ := getLast?_eq_some_iff.mp hl
  rcases mem_append.mp hx with hx | hx
  · exact ((pairwise_append.mp h).2.2 x hx d (mem_singleton_self d)).le
  · exact (mem_singleton.mp hx).le

/-- If the suspensions are final at `pov`, the last one has the latest window. -/
theorem covered_getLast_iff {l : List ℕ} (h : l.Pairwise (· < ·)) {pov : ℕ}
    (hfinal : ∀ d ∈ l, coveredAt N d pov → ∀ d' ∈ l, d' + N.finalityDepth ≤ pov) :
    (∃ d, l.getLast? = some d ∧ coveredAt N d pov) ↔ ∃ d ∈ l, coveredAt N d pov := by
  constructor
  · rintro ⟨d, hlast, hcov⟩
    exact ⟨d, mem_of_getLast? hlast, hcov⟩
  · rintro ⟨d, hd, hcov⟩
    cases hlast : l.getLast? with
    | none => rw [getLast?_eq_none_iff.mp hlast] at hd; cases hd
    | some last =>
      have hle := le_getLast_of_pairwise h hlast d hd
      refine ⟨last, rfl, hfinal d hd hcov last (mem_of_getLast? hlast), ?_⟩
      have := hcov.2
      omega

/-- The suspensions a node had flushed when the tip was at `pov`. -/
theorem suspendDaas_final (events : List QueuedEvent) (pov : ℕ) :
    suspendDaas id (events.filter fun q => decide (q.daa + N.finalityDepth ≤ pov))
      = (suspendDaas id events).filter fun d => decide (d + N.finalityDepth ≤ pov) := by
  rw [suspendDaas, suspendDaas, filterMap_filter, filter_filterMap]
  refine filterMap_congr fun q _ => ?_
  rw [QueuedEvent.suspendDaa?]
  cases q.event with
  | miss m =>
    by_cases hm : m.miner = id ∧ m.penalty = .suspend <;> simp [hm, Option.filter]
  | _ => simp

/-- A node that flushed only what is final at `pov` answers by the windows themselves: the
last suspension it knows has the latest window. -/
theorem isProducerSuspended_live {events : List QueuedEvent}
    (hmono : (suspendDaas id events).Pairwise (· < ·)) (pov : ℕ) :
    (fresh.flush N
        (events.filter fun q => decide (q.daa + N.finalityDepth ≤ pov))).mirrors.isProducerSuspended
          id pov = true
      ↔ ∃ d ∈ suspendDaas id events, coveredAt N d pov := by
  rw [isProducerSuspended_flush, suspendDaas_final,
    covered_getLast_iff N (hmono.filter _) fun _ _ _ d hd => of_decide_eq_true (mem_filter.mp hd).2]
  refine exists_congr fun d => ⟨fun h => ⟨(mem_filter.mp h.1).1, h.2⟩, fun h => ⟨?_, h.2⟩⟩
  exact mem_filter.mpr ⟨h.1, decide_eq_true h.2.1⟩

/-- **When a verdict outlives later suspensions**: after all suspensions are flushed the
verdict at `pov` equals the one of a node that had flushed exactly what was final there, and
is the one the windows give, if and only if no window that covers `pov` is followed by a
suspension that was not final at `pov`. -/
theorem suspension_verdict_iff {events : List QueuedEvent}
    (hmono : (suspendDaas id events).Pairwise (· < ·)) (pov : ℕ) :
    let after := (fresh.flush N events).mirrors
    let live := (fresh.flush N
      (events.filter fun q => decide (q.daa + N.finalityDepth ≤ pov))).mirrors
    (after.isProducerSuspended id pov = live.isProducerSuspended id pov ∧
        (after.isProducerSuspended id pov = true
          ↔ ∃ d ∈ suspendDaas id events, coveredAt N d pov))
      ↔ ∀ d ∈ suspendDaas id events, coveredAt N d pov →
          ∀ d' ∈ suspendDaas id events, d' + N.finalityDepth ≤ pov := by
  have hafter := isProducerSuspended_flush N id events pov
  have hlive := isProducerSuspended_live N id hmono pov
  constructor
  · rintro ⟨-, hexact⟩ d hd hcov d' hd'
    obtain ⟨l, hlast, hl⟩ := hafter.mp (hexact.mpr ⟨d, hd, hcov⟩)
    have := le_getLast_of_pairwise hmono hlast d' hd'
    have := hl.1
    omega
  · intro h
    have hexact := hafter.trans (covered_getLast_iff N hmono h)
    exact ⟨Bool.eq_iff_iff.mpr (hexact.trans hlive.symm), hexact⟩

/-- A miss of identity 1 that suspends, at a score. -/
def suspendingMiss (daa : ℕ) : QueuedEvent :=
  { index := 0, daa, event := .miss ⟨0, 1, 3, .suspend, []⟩ }

/-- The main network with no blocks. -/
def mainnet : Network :=
  .ofBlocks mainnetParams []

/-- Two overlapping suspensions of identity 1 and a later one. -/
def overlappingMisses : List QueuedEvent :=
  [suspendingMiss 80000000, suspendingMiss 80108000, suspendingMiss 82000000]

/-- The verdict on identity 1 of a node that has flushed some events. -/
def verdict (events : List QueuedEvent) (pov : ℕ) : Bool :=
  (fresh.flush mainnet events).mirrors.isProducerSuspended 1 pov

/-- The third suspension is not final at 81500000, where neither of the first two windows is open
any more, nor at 80600000, where both are open. So a node that has flushed all three agrees with the
live node at the former point of view, and with the windows at 82500000 where the third is in force,
but not at the latter. -/
theorem suspension_verdict_overlapping :
    let live := fun pov => overlappingMisses.filter
      fun q => decide (q.daa + mainnet.finalityDepth ≤ pov)
    (live 81500000).length = 2 ∧ (live 80600000).length = 2 ∧
      verdict overlappingMisses 81500000 = verdict (live 81500000) 81500000 ∧
      verdict overlappingMisses 82500000 = true ∧
      ¬ (verdict overlappingMisses 80600000 = verdict (live 80600000) 80600000 ∧
        (verdict overlappingMisses 80600000 = true
          ↔ ∃ d ∈ suspendDaas 1 overlappingMisses, coveredAt mainnet d 80600000)) := by
  have hiff := @suspension_verdict_iff mainnet 1 overlappingMisses (by decide)
  refine ⟨by decide +kernel, by decide +kernel, ((hiff 81500000).mpr (by decide)).1,
    ((hiff 82500000).mpr (by decide)).2.mpr (by decide), fun hagree => ?_⟩
  exact absurd ((hiff 80600000).mp hagree) (by decide)

/-- **An overwritten verdict**: identity 1 is suspended by strikes at 80000000 and 80108000.
At 80432000 the first suspension is in force and the second is not final. A node that has
flushed the second no longer sees the first. -/
theorem suspension_verdict_overwritten :
    let events := [suspendingMiss 80000000, suspendingMiss 80108000]
    (suspendDaas 1 events).Pairwise (· < ·) ∧
      (fresh.flush mainnet events).mirrors.isProducerSuspended 1 80432000 = false ∧
      (fresh.flush mainnet (events.filter
        fun q => decide (q.daa + mainnet.finalityDepth ≤ 80432000))).mirrors.isProducerSuspended
          1 80432000 = true ∧
      ∃ d ∈ suspendDaas 1 events, d + mainnet.finalityDepth ≤ 80432000 ∧
        80432000 < d + mainnet.finalityDepth + serviceSuspensionDaa := by
  decide +kernel

end KeryxNode
