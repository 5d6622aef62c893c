import Mathlib.Data.List.Pairwise
import KeryxNode.RequestCells

/-!
# Request Books of a Truncated Run

A refold does not start at the first block: it folds only the blocks from a floor below a cut
on. This module compares the request book of such a truncated run with the
book of the whole run. The two differ in everything below the floor — old requests, old
early answers, the memory of admitted hashes — and agree on every request that can still be
pending above the cut, provided its early answers were quiet for one early horizon somewhere
between the floor and its acceptance (`QuietBefore`), and the ceiling on early hashes
is never met (`Uncrowded`).
-/

namespace KeryxNode

open List RequestBook Option Provenance

variable {calls : List FoldCall} {c : LedgerConfig}

/-! ### Runs of blocks -/

/-- Some block of the run at score `a` accepts a request with hash `h`. -/
def AcceptedAt (calls : List FoldCall) (h : Hash) (a : ℕ) : Prop :=
  ∃ call ∈ calls, call.input.daa = a ∧ ∃ rq ∈ call.input.requests, rq.1 = h

/-- Some block of the run at score `s` carries an authenticated response to `h`. -/
def AnsweredAt (calls : List FoldCall) (h : Hash) (s : ℕ) : Prop :=
  ∃ call ∈ calls, call.input.daa = s ∧
    ∃ resp ∈ call.input.responses, resp.1 = h ∧ resp.2.isSome

/-- A run of blocks: scores increase, claims carry the score of their block, no outpoint is
created twice and no request hash is accepted twice. -/
structure BlockRun (calls : List FoldCall) : Prop where
  increasing : (calls.map fun call => call.input.daa).Pairwise (· < ·)
  claims : ∀ call ∈ calls, ∀ e ∈ call.input.escrows, e.2.daa = call.input.daa
  outpoints : ((calls.flatMap fun call => call.input.escrows).map fun e => e.2.outpoint).Nodup
  requests : ((calls.flatMap fun call => call.input.requests).map Prod.fst).Nodup

/-- The hashes answered, with authentication, in the early horizon that ends at a score. -/
def answeredWithin (calls : List FoldCall) (daa : ℕ) : List Hash :=
  (calls.filter fun call => decide (call.input.daa ≤ daa ∧
      daa < call.input.daa + serviceEarlyResponseHorizonDaa)).flatMap fun call =>
    (call.input.responses.filter fun resp => resp.2.isSome).map Prod.fst

/-- No early horizon has more distinct answered hashes than the ledger holds early. -/
def Uncrowded (calls : List FoldCall) : Prop :=
  ∀ call ∈ calls, (answeredWithin calls call.input.daa).dedup.length ≤ maxEarlyResponseHashes

/-- At `gap`, past the floor and before the acceptance at `a`, no authenticated response to `h`
is younger than the early horizon. Every later block lies at or past the floor. -/
structure QuietAt (calls : List FoldCall) (floor : ℕ) (h : Hash) (a gap : ℕ) : Prop where
  inside : floor ≤ gap + 1
  before : gap < a
  quiet : ∀ s, AnsweredAt calls h s → s ≤ gap → s + serviceEarlyResponseHorizonDaa ≤ gap

/-- Every request that can be pending above the cut was accepted past the floor, after a quiet
point of its answers there. -/
def QuietBefore (calls : List FoldCall) (cut floor : ℕ) : Prop :=
  ∀ h a, AcceptedAt calls h a → cut < a + serviceLedgerHorizonDaa →
    ∃ gap, QuietAt calls floor h a gap

/-- A run that refolds exactly at a cut: a run of blocks without producers that never meets the
ceiling on early hashes and whose requests were quiet past the floor. -/
structure Refoldable (calls : List FoldCall) (cut floor : ℕ) : Prop where
  run : BlockRun calls
  uncrowded : Uncrowded calls
  producers : ∀ call ∈ calls, call.input.producers = []
  quiet : QuietBefore calls cut floor

namespace BlockRun

variable {calls : List FoldCall}

/-- A request hash is accepted at one score only. -/
theorem accepted_unique (hrun : BlockRun calls) {h : Hash} {a a' : ℕ}
    (ha : AcceptedAt calls h a) (ha' : AcceptedAt calls h a') : a = a' := by
  obtain ⟨call, hcall, rfl, rq, hrq, rfl⟩ := ha
  obtain ⟨call', hcall', rfl, rq', hrq', heq⟩ := ha'
  have hnodup := hrun.requests
  rw [map_flatMap, nodup_flatMap] at hnodup
  by_contra hne
  have hsymm : Std.Symm (Function.onFun Disjoint
      fun call : FoldCall => call.input.requests.map Prod.fst) := ⟨fun _ _ hd => hd.symm⟩
  have hdisjoint := hnodup.2.forall hcall hcall' (fun hsame => hne (by rw [hsame]))
  exact hdisjoint (mem_map_of_mem hrq) (heq ▸ mem_map_of_mem hrq')

/-- The requests of one block have distinct hashes. -/
theorem nodup_requests (hrun : BlockRun calls) {call : FoldCall} (hcall : call ∈ calls) :
    (call.input.requests.map Prod.fst).Nodup := by
  have hnodup := hrun.requests
  rw [map_flatMap, nodup_flatMap] at hnodup
  exact hnodup.1 call hcall

end BlockRun

/-- Early hashes of a book stem from responses inside the early horizon, so an uncrowded run
never meets the ceiling. -/
theorem mem_answeredWithin {h : Hash} {s daa : ℕ} (hs : AnsweredAt calls h s) (hle : s ≤ daa)
    (hlt : daa < s + serviceEarlyResponseHorizonDaa) :
    h ∈ answeredWithin calls daa := by
  obtain ⟨call, hcall, rfl, resp, hresp, rfl, hsome⟩ := hs
  simp only [answeredWithin, mem_flatMap, mem_filter, decide_eq_true_eq]
  exact ⟨call, ⟨hcall, hle, hlt⟩, mem_map_of_mem (mem_filter.mpr ⟨hresp, hsome⟩)⟩

/-! ### One book along a run -/

/-- Every entry of the book stems from a block of the run below score `t`. -/
def FoldedBelow (calls : List FoldCall) (t : ℕ) (b : RequestBook) : Prop :=
  Provenance (fun h a => AcceptedAt calls h a ∧ a < t) (fun h s => AnsweredAt calls h s ∧ s < t)
    (fun h => ∃ a < t, AcceptedAt calls h a) b

/-- And is inside its horizon at the last of these blocks. -/
abbrev CurrentAt (calls : List FoldCall) (daa : ℕ) : RequestBook → Prop :=
  Provenance.Current (fun h a => AcceptedAt calls h a ∧ a < daa + 1)
    (fun h s => AnsweredAt calls h s ∧ s < daa + 1) (fun h => ∃ a < daa + 1, AcceptedAt calls h a)
    daa

namespace FoldedBelow

variable {calls : List FoldCall} {cut floor t : ℕ} {b : RequestBook} {c : LedgerConfig}
  {call : FoldCall}

theorem mono (h : FoldedBelow calls t b) {t' : ℕ} (ht : t ≤ t') : FoldedBelow calls t' b :=
  h.imp (fun _ _ ha => ⟨ha.1, ha.2.trans_le ht⟩) (fun _ _ hs => ⟨hs.1, hs.2.trans_le ht⟩)
    fun _ ⟨a, ha, hacc⟩ => ⟨a, ha.trans_le ht, hacc⟩

/-- The block's own requests. -/
theorem own_requests (hcall : call ∈ calls) :
    ∀ rq ∈ call.input.requests,
      (AcceptedAt calls rq.1 call.input.daa ∧ call.input.daa < call.input.daa + 1) ∧
        ∃ a < call.input.daa + 1, AcceptedAt calls rq.1 a := by
  intro rq hrq
  have hacc : AcceptedAt calls rq.1 call.input.daa := ⟨call, hcall, rfl, rq, hrq, rfl⟩
  exact ⟨⟨hacc, Nat.lt_succ_self _⟩, _, Nat.lt_succ_self _, hacc⟩

/-- The block's own responses. -/
theorem own_responses (hcall : call ∈ calls) :
    ∀ resp ∈ call.input.responses, resp.2.isSome →
      AnsweredAt calls resp.1 call.input.daa ∧ call.input.daa < call.input.daa + 1 :=
  fun resp hresp hsome => ⟨⟨call, hcall, rfl, resp, hresp, rfl, hsome⟩, Nat.lt_succ_self _⟩

section

variable (h : FoldedBelow calls t b) (hsafe : Refoldable calls cut floor) (hcall : call ∈ calls)
  (ht : t ≤ call.input.daa)
include h hsafe hcall ht

/-- Once the requests of a block are in, and once its responses are, everything stems from the run
up to the block and is inside its horizon. -/
theorem current : CurrentAt calls call.input.daa (b.admitAll c call.input) ∧
    CurrentAt calls call.input.daa (b.answeredBook c call.input) :=
  answeredBook (h.mono (ht.trans (Nat.le_succ _))) (hsafe.producers call hcall)
    (own_requests hcall) (own_responses hcall)

/-- An uncrowded run does not meet the ceiling on early hashes. -/
theorem size_early_le :
    (b.answeredBook c call.input).earlyResponses.size ≤ maxEarlyResponseHashes := by
  refine ((h.current hsafe hcall ht).2.size_early_le fun k s hs => ?_).trans
    (hsafe.uncrowded call hcall)
  exact mem_answeredWithin hs.1.1 (Nat.lt_succ_iff.mp hs.1.2) hs.2

/-- The block's requests were not admitted before. -/
theorem fresh : ∀ rq ∈ call.input.requests, b.audited.contains rq.1 = false := by
  intro rq hrq
  rw [Bool.eq_false_iff]
  intro hcontains
  obtain ⟨a, ha, hacc⟩ := h.admitted rq.1 hcontains
  have := hsafe.run.accepted_unique hacc ⟨call, hcall, rfl, rq, hrq, rfl⟩
  omega

/-- One block. -/
theorem replay :
    FoldedBelow calls (call.input.daa + 1) (b.replay c call.input call.cohort).book :=
  Provenance.replay (h.mono (ht.trans (Nat.le_succ _))) (hsafe.producers call hcall) _
    (own_requests hcall) (own_responses hcall) (h.size_early_le hsafe hcall ht)

end

end FoldedBelow

/-! ### Two books along a run -/

/-- The book of a whole run beside the book of the run truncated at a floor below the cut, both
folded through the blocks below score `t`: they agree on every request that can be
pending above the cut, once a quiet point of its answers is behind. -/
structure Twins (calls : List FoldCall) (cut floor t : ℕ) (b b' : RequestBook) : Prop where
  cells : ∀ h a gap, AcceptedAt calls h a → cut < a + serviceLedgerHorizonDaa →
    QuietAt calls floor h a gap → gap + 1 < t → b.cell h = b'.cell h
  left : FoldedBelow calls t b
  right : FoldedBelow calls t b'

namespace Twins

variable {calls : List FoldCall} {cut floor t : ℕ} {b b' : RequestBook} {c : LedgerConfig}
  {call : FoldCall}

/-- The hashes the twins agree on through the block at score `daa`. -/
def Settled (calls : List FoldCall) (cut floor daa : ℕ) (h : Hash) : Prop :=
  ∃ a gap, AcceptedAt calls h a ∧ cut < a + serviceLedgerHorizonDaa ∧
    QuietAt calls floor h a gap ∧ gap < daa

/-- A book folded below a quiet point holds nothing of the hash after the horizons at a score
past the quiet point. -/
theorem cell_expire_of_quiet (hrun : BlockRun calls) {x : RequestBook}
    (hx : FoldedBelow calls t x) {h : Hash} {a gap daa : ℕ} (hacc : AcceptedAt calls h a)
    (hquiet : QuietAt calls floor h a gap) (htgap : t ≤ gap + 1) (hgap : gap < daa) :
    (x.expire c daa).cell h = (none, none) := by
  have hpending : x.pending.get? h = none := by
    rw [eq_none_iff_forall_ne_some]
    intro r hr
    obtain ⟨hacc', hlt⟩ := hx.accepted h r hr
    have := hrun.accepted_unique hacc hacc'
    have := hquiet.before
    omega
  rw [cell_expire]
  simp only [cell, hpending, filter_none, Prod.mk.injEq, true_and, filter_eq_none_iff]
  intro e he
  obtain ⟨hans, hlt⟩ := hx.answered h e he
  have hstale := hquiet.quiet e.1 hans (by omega)
  rw [decide_eq_true_eq]
  omega

section

variable (h : Twins calls cut floor t b b') (hsafe : Refoldable calls cut floor)
  (hcall : call ∈ calls) (ht : t ≤ call.input.daa)
include h hsafe

/-- After the horizons of a block the twins agree on every settled hash. -/
theorem cell_expire_eq {daa : ℕ} {k : Hash} (hk : Settled calls cut floor daa k) :
    (b.expire c daa).cell k = (b'.expire c daa).cell k := by
  obtain ⟨a, gap, hacc, hyoung, hquiet, hgap⟩ := hk
  by_cases hpast : gap + 1 < t
  · rw [cell_expire, cell_expire, h.cells k a gap hacc hyoung hquiet hpast]
  · rw [cell_expire_of_quiet hsafe.run h.left hacc hquiet (by omega) hgap,
      cell_expire_of_quiet hsafe.run h.right hacc hquiet (by omega) hgap]

include hcall ht

/-- The agreement of the twins once the requests of a block are admitted, and after it. -/
theorem cell_replay_eq {k : Hash} (hk : Settled calls cut floor call.input.daa k) :
    (b.admitAll c call.input).cell k = (b'.admitAll c call.input).cell k ∧
      (b.replay c call.input call.cohort).book.cell k
        = (b'.replay c call.input call.cohort).book.cell k := by
  refine cell_replay_congr call.cohort ?_ (hsafe.run.nodup_requests hcall)
    (h.left.fresh hsafe hcall ht) (h.right.fresh hsafe hcall ht)
    (h.left.size_early_le hsafe hcall ht) (h.right.size_early_le hsafe hcall ht)
  rw [hsafe.producers call hcall]
  exact h.cell_expire_eq hsafe hk

/-- **One block keeps the twins in step.** -/
theorem step :
    Twins calls cut floor (call.input.daa + 1) (b.replay c call.input call.cohort).book
      (b'.replay c call.input call.cohort).book where
  cells k a gap hacc hyoung hquiet hgap :=
    (h.cell_replay_eq hsafe hcall ht ⟨a, gap, hacc, hyoung, hquiet, by omega⟩).2
  left := h.left.replay hsafe hcall ht
  right := h.right.replay hsafe hcall ht

/-- **Above the cut the twins produce the same trace.** -/
theorem trace (hcut : cut < call.input.daa) :
    SameBookTrace (b.replay c call.input call.cohort) (b'.replay c call.input call.cohort) := by
  have hleft := (h.left.current (c := c) hsafe hcall ht).1
  have hright := (h.right.current (c := c) hsafe hcall ht).1
  -- A request pending here is inside the ledger horizon, hence settled.
  have hsettled : ∀ {x : RequestBook}, CurrentAt calls call.input.daa x →
      ∀ k, ¬ Settled calls cut floor call.input.daa k → x.pending.get? k = none := by
    intro x hx k hk
    rw [eq_none_iff_forall_ne_some]
    intro r hr
    obtain ⟨⟨hacc, hle⟩, hin⟩ := hx.accepted k r hr
    obtain ⟨gap, hgap⟩ := hsafe.quiet k r.acceptedDaa hacc (hcut.trans hin)
    exact hk ⟨r.acceptedDaa, gap, hacc, hcut.trans hin, hgap, by have := hgap.before; omega⟩
  refine SameBookTrace.replay _ (OrdMap.ext_get? fun k => ?_)
    (hright.scripts.trans hleft.scripts.symm)
  by_cases hk : Settled calls cut floor call.input.daa k
  · exact (of_cell_eq (h.cell_replay_eq hsafe hcall ht hk).1).1.symm
  · rw [hsettled hright k hk, hsettled hleft k hk]

end

end Twins

/-! ### Segments of a run -/

/-- A run is split at score `t`: the first part lies below it, the rest at or past it. -/
structure SplitAt (calls done rest : List FoldCall) (t : ℕ) : Prop where
  eq : calls = done ++ rest
  done_lt : ∀ x ∈ done, x.input.daa < t
  rest_le : ∀ x ∈ rest, t ≤ x.input.daa

namespace SplitAt

variable {calls done rest : List FoldCall} {t : ℕ} {call : FoldCall}

/-- The first block of the rest is one of the run. -/
theorem mem (h : SplitAt calls done (call :: rest) t) : call ∈ calls :=
  h.eq ▸ mem_append_right _ mem_cons_self

/-- Moves the first block of the rest. -/
theorem next (h : SplitAt calls done (call :: rest) t) (hrun : BlockRun calls) :
    SplitAt calls (done ++ [call]) rest (call.input.daa + 1) where
  eq := by rw [h.eq, append_assoc, singleton_append]
  done_lt x hx := by
    rcases mem_append.mp hx with hx | hx
    · have := h.done_lt x hx
      have := h.rest_le call mem_cons_self
      omega
    · rw [mem_singleton.mp hx]
      exact Nat.lt_succ_self _
  rest_le x hx := by
    have hincr := hrun.increasing
    rw [h.eq, map_append, pairwise_append, map_cons, pairwise_cons] at hincr
    exact hincr.2.1.1 _ (mem_map_of_mem hx)

/-- A property of the blocks of a segment folded so far that every block keeps. -/
theorem advance (hrun : BlockRun calls) {I : List FoldCall → ℕ → Prop}
    (hstep : ∀ {seg : List FoldCall} {call : FoldCall} {t : ℕ}, call ∈ calls →
      t ≤ call.input.daa → I seg t → I (seg ++ [call]) (call.input.daa + 1))
    (seg : List FoldCall) {rest : List FoldCall} (h : SplitAt calls done (seg ++ rest) t)
    (hI : I [] t) : ∃ t', SplitAt calls (done ++ seg) rest t' ∧ I seg t' := by
  induction seg using reverseRecOn generalizing rest with
  | nil => exact ⟨t, by rwa [append_nil], hI⟩
  | append_singleton seg call ih =>
    rw [append_assoc] at h
    obtain ⟨t', hsplit, hI⟩ := ih h
    refine ⟨call.input.daa + 1, ?_, hstep (hsplit.mem) (hsplit.rest_le call mem_cons_self) hI⟩
    rw [← append_assoc]
    exact hsplit.next hrun

end SplitAt

/-- The request side of a list of folds. -/
def RequestBook.replayAll (c : LedgerConfig) (b : RequestBook) (calls : List FoldCall) :
    RequestBook :=
  calls.foldl (fun b call => (b.replay c call.input call.cohort).book) b

theorem RequestBook.replayAll_concat (b : RequestBook) (call : FoldCall) :
    b.replayAll c (calls ++ [call])
      = ((b.replayAll c calls).replay c call.input call.cohort).book := by
  rw [replayAll, foldl_concat, replayAll]

/-- A segment keeps the twins in step. -/
theorem Twins.replayAll {cut floor t : ℕ} {done seg rest : List FoldCall} {b b' : RequestBook}
    (hsafe : Refoldable calls cut floor) (hsplit : SplitAt calls done (seg ++ rest) t)
    (htwins : Twins calls cut floor t b b') :
    ∃ t', SplitAt calls (done ++ seg) rest t' ∧
      Twins calls cut floor t' (b.replayAll c seg) (b'.replayAll c seg) := by
  refine SplitAt.advance hsafe.run
    (I := fun seg t => Twins calls cut floor t (b.replayAll c seg) (b'.replayAll c seg))
    (fun hcall ht h => ?_) seg hsplit htwins
  rw [replayAll_concat, replayAll_concat]
  exact h.step hsafe hcall ht

/-- **The start of a truncated run**: the book of the blocks below the floor and the empty book
are twins. -/
theorem Twins.init {pre rest : List FoldCall} {cut floor : ℕ} (hsafe : Refoldable calls cut floor)
    (hsplit : SplitAt calls pre rest floor) :
    Twins calls cut floor floor (RequestBook.replayAll c {} pre) {} := by
  refine ⟨fun h a gap _ _ hquiet hgap => ?_, ?_, empty⟩
  · have := hquiet.inside
    omega
  · have hstart : SplitAt calls [] (pre ++ rest) 0 :=
      ⟨hsplit.eq, fun x hx => (by cases hx), fun x _ => Nat.zero_le _⟩
    obtain ⟨t', hsplit', hfolded⟩ := hstart.advance hsafe.run
      (I := fun seg t => FoldedBelow calls t (RequestBook.replayAll c {} seg))
      (fun hcall ht h => replayAll_concat (c := c) {} _ ▸ h.replay hsafe hcall ht) pre
      empty
    -- Every block folded so far is one of `pre`, below the floor.
    have hbound : ∀ (x : FoldCall), x ∈ calls → x.input.daa < t' →
        x.input.daa < floor := by
      intro x hx hlt
      rw [hsplit.eq] at hx
      rcases mem_append.mp hx with hx | hx
      · exact hsplit.done_lt x hx
      · have := hsplit'.rest_le x hx
        omega
    refine imp hfolded ?_ ?_ ?_
    · rintro h a ⟨⟨x, hx, rfl, hrq⟩, hlt⟩
      exact ⟨⟨x, hx, rfl, hrq⟩, hbound x hx hlt⟩
    · rintro h s ⟨⟨x, hx, rfl, hresp⟩, hlt⟩
      exact ⟨⟨x, hx, rfl, hresp⟩, hbound x hx hlt⟩
    · rintro h ⟨a, hlt, x, hx, rfl, hrq⟩
      exact ⟨_, hbound x hx hlt, x, hx, rfl, hrq⟩

end KeryxNode
