import KeryxNode.PartialRun
import KeryxNode.StreakRecords
import KeryxNode.WarmupRefold

/-!
# Strike Escalation

A missed audit costs the newest claims first, then all of them, then a suspension; a served request
ends the streak, and no identity is struck twice inside one interval. This module states the
discipline as an automaton on strike records (`StrikeEntry.next`): a run of it spaces the misses,
remembers the last one and walks the schedule. The folds of a ledger drive the automaton: the
resets of a block's responses, its misses and the resets at its arming audits, in this order, lead
from the record of an identity before the block to the one after it.

## Main results

* `strike_escalation`: along every run of folds past the v2 gate from records of at most two misses.
* `strike_escalation_long_base`: a record of three misses stays, and its next miss suspends.
-/

namespace KeryxNode

open List BondBook

/-! ### The automaton -/

/-- What happens to the streak of an identity: it serves, or it misses an audit. -/
inductive StreakEvent where
  | reset
  | miss (daa : ℕ) (penalty : ServicePenalty)
  deriving DecidableEq

/-- The score of a miss. -/
def StreakEvent.score? : StreakEvent → Option ℕ
  | reset => none
  | miss daa _ => some daa

/-- One event on a strike record. A reset ends a streak and keeps the score of the last miss. A
miss lies an interval past the last one and takes the penalty of its place in the streak; a
suspension restarts the streak. -/
def StrikeEntry.next (s : StrikeEntry) : StreakEvent → Option StrikeEntry
  | .reset => if 0 < s.count then some ⟨0, s.lastDaa⟩ else none
  | .miss daa penalty =>
    if 0 < daa ∧ (s.lastDaa = 0 ∨ s.lastDaa + serviceStrikeIntervalDaa ≤ daa) ∧
        penalty = strikePenaltyAt (s.count + 1) true true then
      some ⟨if penalty = .suspend then 0 else s.count + 1, daa⟩
    else none

/-- The penalties of a full streak. -/
def escalation : List ServicePenalty :=
  [.burnClaims 5, .slashAllPending, .suspend]

/-- The penalties since the last reset or suspension, after one more event. -/
def extendStreak (streak : List ServicePenalty) : StreakEvent → List ServicePenalty
  | .reset => []
  | .miss _ penalty =>
    if streak.getLast? = some .suspend then [penalty] else streak ++ [penalty]

/-- The penalties of the misses since the last reset or suspension, `start` being those before the
first event. -/
def streakAfter (start : List ServicePenalty) (events : List StreakEvent) : List ServicePenalty :=
  events.foldl extendStreak start

/-- What the events that lead from one record to another have in common. -/
structure Disciplined (s₀ : StrikeEntry) (events : List StreakEvent) (s : StrikeEntry) : Prop where
  spaced : (events.filterMap StreakEvent.score?).Pairwise (· + serviceStrikeIntervalDaa ≤ ·)
  scores : ∀ d ∈ events.filterMap StreakEvent.score?, 0 < d ∧ d ≤ s.lastDaa
  last : s.lastDaa = (events.filterMap StreakEvent.score?).getLast?.getD s₀.lastDaa
  grows : s₀.lastDaa ≤ s.lastDaa
  streak : ∃ n ≤ 3, streakAfter (escalation.take s₀.count) events = escalation.take n ∧
    s.count = n % 3

/-- **One event.** -/
theorem Disciplined.next {s₀ s s' : StrikeEntry} {events : List StreakEvent} {e : StreakEvent}
    (h : Disciplined s₀ events s) (he : s.next e = some s') :
    Disciplined s₀ (events ++ [e]) s' := by
  obtain ⟨n, hn, hstreak, hcount⟩ := h.streak
  cases e with
  | reset =>
    simp only [StrikeEntry.next, Option.ite_none_right_eq_some, Option.some.injEq] at he
    obtain ⟨-, rfl⟩ := he
    have hsame : (events ++ [StreakEvent.reset]).filterMap StreakEvent.score?
        = events.filterMap StreakEvent.score? := by
      simp [StreakEvent.score?]
    refine ⟨hsame ▸ h.spaced, hsame ▸ h.scores, hsame ▸ h.last, h.grows, 0, by omega, ?_, rfl⟩
    rw [streakAfter, foldl_concat]
    rfl
  | miss daa penalty =>
    simp only [StrikeEntry.next, Option.ite_none_right_eq_some, Option.some.injEq] at he
    obtain ⟨⟨hpos, hlater, hpenalty⟩, rfl⟩ := he
    have hmore : (events ++ [StreakEvent.miss daa penalty]).filterMap StreakEvent.score?
        = events.filterMap StreakEvent.score? ++ [daa] := by
      simp [StreakEvent.score?]
    have hle : s.lastDaa ≤ daa := by omega
    refine ⟨?_, ?_, ?_, h.grows.trans hle, ?_⟩
    · rw [hmore, pairwise_append]
      refine ⟨h.spaced, pairwise_singleton _ _, fun a ha b hb => ?_⟩
      obtain ⟨ha, hle⟩ := h.scores a ha
      rw [mem_singleton.mp hb]
      omega
    · intro d hd
      rw [hmore, mem_append, mem_singleton] at hd
      rcases hd with hd | rfl
      · exact ⟨(h.scores d hd).1, (h.scores d hd).2.trans hle⟩
      · exact ⟨hpos, le_rfl⟩
    · rw [hmore, getLast?_concat]
      rfl
    · -- The streak has 0 to 3 penalties, and the record counts them unless it is suspended.
      rw [streakAfter, foldl_concat, ← streakAfter, hstreak, hpenalty, hcount]
      obtain rfl | rfl | rfl | rfl : n = 0 ∨ n = 1 ∨ n = 2 ∨ n = 3 := by omega
      · exact ⟨1, by decide, rfl, rfl⟩
      · exact ⟨2, by decide, rfl, rfl⟩
      · exact ⟨3, by decide, rfl, rfl⟩
      · exact ⟨1, by decide, rfl, rfl⟩

/-- **A run of the automaton** from a record of at most two misses. -/
theorem Disciplined.of_run {s₀ s : StrikeEntry} {events : List StreakEvent} (hcount : s₀.count ≤ 2)
    (h : events.foldlM StrikeEntry.next s₀ = some s) : Disciplined s₀ events s := by
  induction events using reverseRecOn generalizing s with
  | nil =>
    cases h
    exact ⟨.nil, nofun, rfl, le_rfl, s₀.count, by omega, rfl, (Nat.mod_eq_of_lt (by omega)).symm⟩
  | append_singleton events e ih =>
    obtain ⟨u, hu, he⟩ := foldlM_concat_eq_some.mp h
    exact (ih hu).next he

/-! ### The events of a block -/

/-- The strike record of an identity. One it does not have reads as zeros. -/
def BondBook.entry (b : BondBook) (id : Hash) : StrikeEntry :=
  (b.strikeState id).getD ⟨0, 0⟩

/-- What a list of resets tells about an identity. -/
def resetEvents (id : Hash) (resets : List (Hash × ℕ)) : List StreakEvent :=
  (resets.filter fun r => decide (r.1 = id)).map fun _ => .reset

/-- What the misses of a block at score `daa` tell about an identity. -/
def missEvents (id : Hash) (daa : ℕ) (misses : List ServiceMiss) : List StreakEvent :=
  (misses.filter fun m => decide (m.miner = id)).map fun m => .miss daa m.penalty

variable (id : Hash) {daa : ℕ}

/-- Resets past the v2 gate drive the automaton. -/
theorem resetAll_events (served : List Hash) (s : BondBook × List (Hash × ℕ)) :
    ∃ new, (resetAll true served s).2 = s.2 ++ new ∧
      (resetEvents id new).foldlM StrikeEntry.next (s.1.entry id)
        = some ((resetAll true served s).1.entry id) := by
  unfold resetAll
  refine foldlRecOn _ _ (motive := fun s' : BondBook × List (Hash × ℕ) => ∃ new, s'.2 = s.2 ++ new ∧
    (resetEvents id new).foldlM StrikeEntry.next (s.1.entry id) = some (s'.1.entry id))
    ⟨[], (append_nil _).symm, rfl⟩ ?_
  rintro s' ⟨new, hnew, hrun⟩ k -
  rcases resetServed_cases true s' k with heq | ⟨e, he, hcount, hresets, hstate⟩
  · rw [heq]
    exact ⟨new, hnew, hrun⟩
  refine ⟨new ++ [(k, e.lastDaa)], by rw [hresets, hnew, append_assoc]; rfl, ?_⟩
  by_cases hk : k = id
  · subst hk
    have hevents : resetEvents k (new ++ [(k, e.lastDaa)]) = resetEvents k new ++ [.reset] := by
      simp [resetEvents]
    rw [hevents, foldlM_concat_eq_some]
    exact ⟨_, hrun, by simp [StrikeEntry.next, entry, he, hstate, hcount]⟩
  · have hevents : resetEvents id (new ++ [(k, e.lastDaa)]) = resetEvents id new := by
      simp [resetEvents, hk]
    rw [hevents, hrun, entry, entry, hstate, if_neg (Ne.symm hk)]

/-- Strikes past the v2 gate drive the automaton. -/
theorem strikeAll_events (hdaa : 0 < daa) (est : Hash → Bool) (closings : List (Hash × Hash))
    (s : BondBook × List ServiceMiss) :
    ∃ new, (strikeAll daa true est closings s).2 = s.2 ++ new ∧
      (missEvents id daa new).foldlM StrikeEntry.next (s.1.entry id)
        = some ((strikeAll daa true est closings s).1.entry id) := by
  unfold strikeAll
  refine foldlRecOn _ _ (motive := fun s' : BondBook × List ServiceMiss => ∃ new,
    s'.2 = s.2 ++ new ∧ (missEvents id daa new).foldlM StrikeEntry.next (s.1.entry id)
      = some (s'.1.entry id))
    ⟨[], (append_nil _).symm, rfl⟩ ?_
  rintro s' ⟨new, hnew, hrun⟩ p -
  rcases strike_cases daa true est p.1 s' p.2 with
    ⟨-, heq⟩ | ⟨hlimit, m, hm, hcount, hpenalty, hmisses, hstate⟩
  · rw [heq]
    exact ⟨new, hnew, hrun⟩
  refine ⟨new ++ [m], by rw [hmisses, hnew, append_assoc], ?_⟩
  by_cases hk : p.2 = id
  · have hevents : missEvents id daa (new ++ [m])
        = missEvents id daa new ++ [.miss daa m.penalty] := by
      simp [missEvents, hm, hk]
    rw [hevents, foldlM_concat_eq_some]
    refine ⟨_, hrun, ?_⟩
    have hentry : (s'.1.entry id).count + 1 = m.consecutiveMisses := by
      rw [hcount, hk, consecutiveMisses, entry]
      cases s'.1.strikeState id <;> rfl
    have hspaced : (s'.1.entry id).lastDaa = 0 ∨
        (s'.1.entry id).lastDaa + serviceStrikeIntervalDaa ≤ daa := by
      rw [rateLimited, hk] at hlimit
      rw [entry]
      cases hs : s'.1.strikeState id with
      | none => exact .inl rfl
      | some e =>
        rw [hs, Option.any_some, decide_eq_false_iff_not] at hlimit
        simp only [Option.getD_some]
        omega
    have hschedule : m.penalty = strikePenaltyAt m.consecutiveMisses true true := by
      rw [hpenalty]
      cases est p.2 <;> rfl
    have hafter : (strike daa true est p.1 s' p.2).1.entry id = FlushState.missRecord daa m := by
      rw [entry, hstate, if_pos hk.symm, Option.getD_some]
    rw [StrikeEntry.next, if_pos ⟨hdaa, hspaced, by rw [hentry, hschedule]⟩, hafter, hentry,
      FlushState.missRecord]
    split <;> rfl
  · have hevents : missEvents id daa (new ++ [m]) = missEvents id daa new := by
      simp [missEvents, hm, hk]
    rw [hevents, hrun, entry, entry, hstate, if_neg (Ne.symm hk)]

namespace ServiceLedger

/-- The events of an identity in a block, in the order of the fold: the resets of its responses,
the misses of its closing audits, the resets at its arming audits. -/
def blockEvents (L : ServiceLedger) (id : Hash) (call : FoldCall) : List StreakEvent :=
  let outcome := (L.fold call).2
  let trace := L.toRequestBook.replay L.toLedgerConfig call.input call.cohort
  let opened := (L.toBondBook.openBlock L.burnable call.input none).1.1
  let served := (resetAll (L.v2At call.input.daa) trace.credits (opened, [])).2.length
  resetEvents id (outcome.resets.take served) ++ missEvents id call.input.daa outcome.misses ++
    resetEvents id (outcome.resets.drop served)

/-- The events of an identity along a run. -/
def events (id : Hash) : ServiceLedger → List FoldCall → List StreakEvent
  | _, [] => []
  | L, call :: calls => L.blockEvents id call ++ events id (L.fold call).1 calls

variable {L : ServiceLedger} {call : FoldCall}

/-- **One block** drives the automaton from the record before it to the record after it. -/
theorem foldlM_blockEvents (hdaa : 0 < call.input.daa) (hv2 : L.v2At call.input.daa = true) :
    (L.blockEvents id call).foldlM StrikeEntry.next (L.entry id)
      = some ((L.fold call).1.entry id) := by
  have hopened : L.entry id = (L.toBondBook.openBlock L.burnable call.input none).1.1.entry id := by
    rw [entry, entry, (openBlock_sightings L.toBondBook L.burnable call.input).2.2.2]
  have hfold := foldInner_normal L call.input call.cohort call.isEstablished
  simp only [settle, hv2] at hfold
  simp only [blockEvents, fold, onChainBlockWithRewards, hfold, hv2, hopened]
  generalize (L.toBondBook.openBlock L.burnable call.input none).1.1 = opened
  generalize L.toRequestBook.replay L.toLedgerConfig call.input call.cohort = trace
  obtain ⟨served, hserved, hfirst⟩ := resetAll_events id trace.credits (opened, [])
  set first := resetAll true trace.credits (opened, [])
  obtain ⟨misses, hmisses, hsecond⟩ := strikeAll_events id hdaa call.isEstablished
    trace.closings (first.1, [])
  set second := strikeAll call.input.daa true call.isEstablished trace.closings (first.1, [])
  obtain ⟨armed, harmed, hthird⟩ := resetAll_events id trace.armCredits
    (second.1, first.2)
  rw [hserved, nil_append] at harmed hthird ⊢
  rw [harmed, take_left, drop_left, hmisses, nil_append, foldlM_append, foldlM_append, hfirst,
    Option.bind_eq_bind, Option.bind_some, hsecond, Option.bind_some, hthird]

variable {calls : List FoldCall}

/-- **A run of folds** drives the automaton. -/
theorem foldlM_events (hpos : ∀ call ∈ calls, 1 ≤ call.input.daa)
    (hv2 : ∀ call ∈ calls, L.v2At call.input.daa = true) :
    (L.events id calls).foldlM StrikeEntry.next (L.entry id) = some ((L.run calls).1.entry id) := by
  induction calls generalizing L with
  | nil => rfl
  | cons call calls ih =>
    have hblock := foldlM_blockEvents id (hpos call mem_cons_self) (hv2 call mem_cons_self)
    rw [events, foldlM_append, hblock]
    refine ih (fun x hx => hpos x (mem_cons_of_mem _ hx)) fun x hx => ?_
    rw [config_fold]
    exact hv2 x (mem_cons_of_mem _ hx)

theorem run_append (L : ServiceLedger) (done rest : List FoldCall) :
    (L.run (done ++ rest)).1 = ((L.run done).1.run rest).1 := by
  induction done generalizing L with
  | nil => rfl
  | cons call done ih => exact ih _

end ServiceLedger

open ServiceLedger

/-- **Strike escalation.** Along every run of folds past the v2 gate, from records of at most two
misses: the misses of an identity are an interval apart; after every part of the run the score of
its record is that of its latest miss, or the one it started with, never a smaller one than before,
and the record counts at most two misses; and at any time the penalties since its last reset or
suspension are the first ones of the schedule, those its first record counts included. -/
theorem strike_escalation (L : ServiceLedger) (calls : List FoldCall) (id : Hash)
    (hpos : ∀ call ∈ calls, 1 ≤ call.input.daa)
    (hv2 : ∀ call ∈ calls, L.v2At call.input.daa = true) (hbase : (L.entry id).count ≤ 2) :
    ((L.events id calls).filterMap StreakEvent.score?).Pairwise
        (· + serviceStrikeIntervalDaa ≤ ·) ∧
      (∀ done more rest, calls = done ++ more ++ rest →
        let now := (L.run (done ++ more)).1.entry id
        ((L.run done).1.entry id).lastDaa ≤ now.lastDaa ∧ now.count ≤ 2 ∧
        now.lastDaa = ((L.events id (done ++ more)).filterMap StreakEvent.score?).getLast?.getD
          (L.entry id).lastDaa) ∧
      ∀ before, before <+: L.events id calls →
        streakAfter (escalation.take (L.entry id).count) before <+: escalation := by
  have hrun := foldlM_events id hpos hv2
  refine ⟨(Disciplined.of_run hbase hrun).spaced, ?_, ?_⟩
  · rintro done more rest rfl now
    have hsub : ∀ part, part ⊆ done ++ more ++ rest →
        (∀ call ∈ part, 1 ≤ call.input.daa) ∧ ∀ call ∈ part, L.v2At call.input.daa = true :=
      fun _ h => ⟨fun x hx => hpos x (h hx), fun x hx => hv2 x (h hx)⟩
    have hdone := hsub done fun x hx => by simp [hx]
    have hmore := hsub more fun x hx => by simp [hx]
    have hboth := hsub (done ++ more) (subset_append_left _ _)
    have hafter := Disciplined.of_run hbase (foldlM_events id hboth.1 hboth.2)
    have hcount : ∀ {es : List StreakEvent} {s : StrikeEntry}, Disciplined (L.entry id) es s →
        s.count ≤ 2 := by
      intro es s h
      obtain ⟨n, -, -, hn⟩ := h.streak
      omega
    have hfirst := hcount (Disciplined.of_run hbase (foldlM_events id hdone.1 hdone.2))
    have hstep := Disciplined.of_run hfirst
      (foldlM_events id hmore.1 ((config_run L done).symm ▸ hmore.2))
    rw [← run_append] at hstep
    exact ⟨hstep.grows, hcount hafter, hafter.last⟩
  · rintro before ⟨later, heq⟩
    rw [← heq, foldlM_append] at hrun
    obtain ⟨s, hs, -⟩ := Option.bind_eq_some_iff.mp hrun
    obtain ⟨n, -, hstreak, -⟩ := (Disciplined.of_run hbase hs).streak
    rw [hstreak]
    exact take_prefix n escalation

/-- A ledger with the v2 gate live whose identity 1 has a record of `count` misses. -/
def struckLedger (count : ℕ) : ServiceLedger :=
  ({ windowV2ActivationDaa := some 0 } : ServiceLedger).setBase
    (OrdMap.empty.insert 1 ⟨count, 0⟩)

/-- Identity 1 stays silent on request 9. -/
def silentAudit : List FoldCall :=
  [cohortBlock { daa := 100, requests := [(9, 0, 0)] }, cohortBlock { daa := 101 },
    cohortBlock { daa := 3102 }]

/-- An identity with one miss is slashed at its second one. -/
theorem strike_escalation_second :
    (struckLedger 1).events 1 silentAudit = [.miss 3102 .slashAllPending] ∧
      ((struckLedger 1).events 1 silentAudit).filterMap StreakEvent.score? = [3102] ∧
      ∀ before, before <+: (struckLedger 1).events 1 silentAudit →
        streakAfter [.burnClaims 5] before <+: escalation := by
  have h := strike_escalation (struckLedger 1) silentAudit 1 (by decide) (by decide) (by decide)
  exact ⟨by decide +kernel, by decide +kernel, h.2.2⟩

/-- A record of three misses stays as it is, and the next miss suspends at once. -/
theorem strike_escalation_long_base :
    (∀ call ∈ silentAudit, 1 ≤ call.input.daa ∧ (struckLedger 3).v2At call.input.daa = true) ∧
      (((struckLedger 3).run (silentAudit.take 2)).1.entry 1).count = 3 ∧
      (struckLedger 3).events 1 silentAudit = [.miss 3102 .suspend] := by
  decide +kernel

end KeryxNode
