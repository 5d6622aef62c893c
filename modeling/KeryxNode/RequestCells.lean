import KeryxNode.FoldSplit

/-!
# Request Books, Hash by Hash

A request book is a family of independent cells: what it holds about one request hash — the
pending entry and the parked early answers — evolves without looking at any other hash, as
long as the ceiling on early answers is not met. This module states that independence as an
agreement of two books on a hash, and follows the provenance of every entry: which
block accepted it, which block parked it.
-/

namespace KeryxNode

open RequestBook OrdMap List

variable {t : AnswerTrace} {i : FoldInput}

namespace RequestBook

variable {h : Hash} (cohort : ℕ → List (Hash × Hash)) (rh : Hash)

/-! ### Cells -/

/-- What a request book holds about one hash: its pending entry and its early answers. -/
def cell (b : RequestBook) (h : Hash) : Option PendingRequest × Option (ℕ × List Hash) :=
  (b.pending.get? h, b.earlyResponses.get? h)

variable {b b' : RequestBook} {c : LedgerConfig} {daa : ℕ}

theorem of_cell_eq (hcell : b.cell h = b'.cell h) :
    b.pending.get? h = b'.pending.get? h ∧ b.earlyResponses.get? h = b'.earlyResponses.get? h :=
  Prod.ext_iff.mp hcell

theorem cell_expire (b : RequestBook) (c : LedgerConfig) (daa : ℕ) (h : Hash) :
    (b.expire c daa).cell h
      = ((b.cell h).1.filter fun r => decide (daa < r.acceptedDaa + serviceLedgerHorizonDaa),
          (b.cell h).2.filter fun e => decide (daa < e.1 + serviceEarlyResponseHorizonDaa)) := by
  simp only [cell, expire, get?_filter]

theorem cell_admitRequest_of_ne (requestRewards : List (Hash × ℕ)) (rq : Hash × ℕ × ℕ)
    (hne : h ≠ rq.1) : (b.admitRequest c daa requestRewards rq).cell h = b.cell h := by
  simp only [admitRequest]
  split
  · rfl
  · simp only [cell, get?_insert_of_ne _ _ hne, get?_erase_of_ne _ hne]

/-- Admitting a request to two books that never admitted it keeps their agreement on a hash. -/
theorem cell_admitRequest_congr (requestRewards : List (Hash × ℕ)) (rq : Hash × ℕ × ℕ)
    (hfresh : b.audited.contains rq.1 = false) (hfresh' : b'.audited.contains rq.1 = false)
    (hcell : b.cell h = b'.cell h) : (b.admitRequest c daa requestRewards rq).cell h
      = (b'.admitRequest c daa requestRewards rq).cell h := by
  obtain ⟨hpending, hearly⟩ := of_cell_eq hcell
  simp only [admitRequest, hfresh, hfresh', Bool.false_eq_true, and_false, if_false, cell,
    get?_insert, get?_erase]
  by_cases heq : h = rq.1
  · subst heq
    simp only [if_true, hpending, hearly]
  · simp only [if_neg heq, hpending, hearly]

/-- The hashes a book remembers as admitted, after an admission. -/
theorem audited_admitRequest {requestRewards : List (Hash × ℕ)} {rq : Hash × ℕ × ℕ}
    (hmem : (b.admitRequest c daa requestRewards rq).audited.contains h = true) :
    h = rq.1 ∨ b.audited.contains h = true := by
  simp only [admitRequest] at hmem
  by_cases heq : h = rq.1
  · exact .inl heq
  · refine .inr ?_
    split at hmem
    · exact hmem
    · simp only [contains_eq_true] at hmem ⊢
      split at hmem
      · rwa [get?_insert_of_ne _ _ heq] at hmem
      · exact hmem

/-- Admitting distinct requests no book has admitted keeps the agreement. -/
theorem cell_admitRequests_congr (requestRewards : List (Hash × ℕ))
    {requests : List (Hash × ℕ × ℕ)} (hnodup : (requests.map Prod.fst).Nodup)
    (hfresh : ∀ rq ∈ requests, b.audited.contains rq.1 = false)
    (hfresh' : ∀ rq ∈ requests, b'.audited.contains rq.1 = false)
    (hcell : b.cell h = b'.cell h) :
    (requests.foldl (RequestBook.admitRequest c daa requestRewards) b).cell h
      = (requests.foldl (RequestBook.admitRequest c daa requestRewards) b').cell h := by
  induction requests generalizing b b' with
  | nil => exact hcell
  | cons rq requests ih =>
    obtain ⟨hnot, hnodup⟩ := nodup_cons.mp hnodup
    -- A later request is another hash, so it is still fresh.
    have hlater : ∀ (x : RequestBook), (∀ r ∈ rq :: requests, x.audited.contains r.1 = false) →
        ∀ r ∈ requests,
          (x.admitRequest c daa requestRewards rq).audited.contains r.1 = false := by
      intro x hx r hr
      rw [Bool.eq_false_iff]
      intro hcontains
      rcases audited_admitRequest hcontains with heq | hold
      · exact hnot (heq ▸ mem_map_of_mem hr)
      · rw [hx r (mem_cons_of_mem _ hr)] at hold
        cases hold
    exact ih hnodup (hlater b hfresh) (hlater b' hfresh')
      (cell_admitRequest_congr requestRewards rq (hfresh rq mem_cons_self)
        (hfresh' rq mem_cons_self) hcell)

/-! ### Responses and visits -/

theorem cell_respond_of_ne (r : Hash) (hne : h ≠ rh) :
    (b.respond daa rh r).1.cell h = b.cell h := by
  simp only [respond]
  split
  · simp only [cell, parkEarly, get?_insert_of_ne _ _ hne]
  · split <;> simp only [cell, get?_insert_of_ne _ _ hne]

theorem respond_congr (daa : ℕ) (rh r : Hash) (hcell : b.cell rh = b'.cell rh) :
    (b.respond daa rh r).1.cell rh = (b'.respond daa rh r).1.cell rh ∧
      (b.respond daa rh r).2 = (b'.respond daa rh r).2 := by
  obtain ⟨hpending, hearly⟩ := of_cell_eq hcell
  simp only [respond, hpending]
  cases b'.pending.get? rh with
  | none => simp only [cell, parkEarly, get?_insert_self, hpending, hearly, and_self]
  | some req =>
    cases hreq : req.audit <;> simp only [hreq, cell, get?_insert_self, hearly, and_self]

/-- What an award does: nothing, or it enters the winner of a request without one. -/
theorem awardFirst_cases (c : LedgerConfig) (b : RequestBook) (rh : Hash) (credited : List Hash) :
    b.awardFirst c rh credited = (b, none) ∨ ∃ req winner, b.pending.get? rh = some req ∧
      req.winner = none ∧ b.awardFirst c rh credited
        = ({ b with pending := b.pending.insert rh { req with winner := some winner } },
            some ⟨rh, winner, req.reward, b.producerSpk.get? winner⟩) := by
  unfold awardFirst maybeAward
  split
  · exact .inl rfl
  · split
    · exact .inl rfl
    · split
      · exact .inl rfl
      · next req hreq =>
        split
        · exact .inl rfl
        · next hopen =>
          simp only [not_or, Bool.not_eq_true, Option.isSome_eq_false_iff,
            Option.isNone_iff_eq_none] at hopen
          exact .inr ⟨req, _, hreq, hopen.2.1, rfl⟩

/-- What a visit does: nothing, it drops the entry, or it arms the audit and awards it to the first
early answer. -/
theorem closeOrArm_cases (c : LedgerConfig) (daa : ℕ) (b : RequestBook) :
    b.closeOrArm c daa cohort rh = { book := b } ∨
      (∃ silent, b.closeOrArm c daa cohort rh
        = { book := { b with pending := b.pending.erase rh }, silent }) ∨
      ∃ req window, b.pending.get? rh = some req ∧ req.audit = none ∧
        let audit := Audit.arm window (cohort req.tier) req.earlyResponders
        let armed := { req with audit := some audit, earlyResponders := [] }
        let awarded := { b with pending := b.pending.insert rh armed }.awardFirst c rh
          audit.responded
        b.closeOrArm c daa cohort rh
          = { book := awarded.1, credited := audit.responded, reward := awarded.2 } := by
  simp only [closeOrArm]
  split
  · exact .inl rfl
  · next req hreq =>
    split
    · split
      · exact .inr (.inl ⟨_, rfl⟩)
      · exact .inl rfl
    · next haudit =>
      split
      · split
        · exact .inr (.inl ⟨_, rfl⟩)
        · exact .inr (.inr ⟨req, _, hreq, haudit, rfl⟩)
      · exact .inl rfl

/-- A book changed at most in the pending entry of one hash. -/
structure Touches (rh : Hash) (b b' : RequestBook) : Prop where
  book : b' = { b with pending := b'.pending }
  pending : ∀ h ≠ rh, b'.pending.get? h = b.pending.get? h

theorem Touches.cell (ht : Touches rh b b') (hne : h ≠ rh) : b'.cell h = b.cell h := by
  rw [RequestBook.cell, ht.pending h hne, ht.book]
  rfl

theorem Touches.insert (b : RequestBook) (req : PendingRequest) :
    Touches rh b { b with pending := b.pending.insert rh req } :=
  ⟨rfl, fun _ => get?_insert_of_ne _ _⟩

theorem Touches.trans {b'' : RequestBook} (h : Touches rh b b') (h' : Touches rh b' b'') :
    Touches rh b b'' :=
  ⟨h'.book.trans (by rw [h.book]), fun k hk => (h'.pending k hk).trans (h.pending k hk)⟩

theorem awardFirst_touches (c : LedgerConfig) (b : RequestBook) (credited : List Hash) :
    Touches rh b (b.awardFirst c rh credited).1 := by
  obtain h | ⟨req, winner, -, -, h⟩ := awardFirst_cases c b rh credited
  · exact h ▸ ⟨rfl, fun _ _ => rfl⟩
  · exact h ▸ .insert rh b _

theorem closeOrArm_touches (c : LedgerConfig) (daa : ℕ) (b : RequestBook) :
    Touches rh b (b.closeOrArm c daa cohort rh).book := by
  obtain h | ⟨silent, h⟩ | ⟨req, window, -, -, h⟩ := closeOrArm_cases cohort rh c daa b
  · exact h ▸ ⟨rfl, fun _ _ => rfl⟩
  · exact h ▸ ⟨rfl, fun _ => get?_erase_of_ne _⟩
  · rw [h]
    exact (Touches.insert rh b _).trans rh (awardFirst_touches rh c _ _)

theorem cell_awardFirst_congr (credited : List Hash) (hcell : b.cell rh = b'.cell rh) :
    (b.awardFirst c rh credited).1.cell rh = (b'.awardFirst c rh credited).1.cell rh := by
  obtain ⟨hpending, hearly⟩ := of_cell_eq hcell
  simp only [awardFirst, maybeAward, hpending]
  split
  · exact hcell
  · split
    · exact hcell
    · split
      · exact hcell
      · split
        · exact hcell
        · simp only [cell, get?_insert_self, hearly]

theorem cell_closeOrArm_congr (hcell : b.cell rh = b'.cell rh) :
    (b.closeOrArm c daa cohort rh).book.cell rh
      = (b'.closeOrArm c daa cohort rh).book.cell rh := by
  obtain ⟨hpending, hearly⟩ := of_cell_eq hcell
  simp only [closeOrArm, hpending]
  split
  · exact hcell
  · split
    · split
      · simp only [cell, get?_erase_self, hearly]
      · exact hcell
    · split
      · split
        · simp only [cell, get?_erase_self, hearly]
        · refine cell_awardFirst_congr rh _ ?_
          simp only [cell, get?_insert_self, hearly]
      · exact hcell

/-- A response to another request leaves the cell alone, and so does one nobody signed. -/
theorem cell_answer_of_ne {rh : Hash} {resp : Hash × Option Hash} (hne : ∀ r, resp ≠ (rh, some r)) :
    (t.answer c daa resp).book.cell rh = t.book.cell rh := by
  obtain ⟨h, none | r⟩ := resp
  · rfl
  · have hrh : rh ≠ h := by
      rintro rfl
      exact hne r rfl
    exact ((awardFirst_touches h c _ _).cell h hrh).trans (cell_respond_of_ne h r hrh)

/-- Answering a response keeps the agreement. -/
theorem cell_answer_congr {t' : AnswerTrace} (hcell : t.book.cell h = t'.book.cell h)
    (resp : Hash × Option Hash) :
    (t.answer c daa resp).book.cell h = (t'.answer c daa resp).book.cell h := by
  by_cases hresp : ∃ r, resp = (h, some r)
  · obtain ⟨r, rfl⟩ := hresp
    obtain ⟨hcell, hcredits⟩ := respond_congr daa h r hcell
    simp only [AnswerTrace.answer, hcredits]
    exact cell_awardFirst_congr h _ hcell
  · have hne : ∀ r, resp ≠ (h, some r) := fun r hr => hresp ⟨r, hr⟩
    rw [cell_answer_of_ne hne, cell_answer_of_ne hne, hcell]

/-- Below the ceiling no early answer is evicted. -/
theorem evictEarly_of_le (hsize : b.earlyResponses.size ≤ maxEarlyResponseHashes) :
    b.evictEarly = b := by
  have hloop : ∀ fuel, evictLoop fuel b.earlyResponses = b.earlyResponses := by
    intro fuel
    cases fuel with
    | zero => rfl
    | succ fuel => rw [evictLoop, if_neg (not_lt.mpr hsize)]
  rw [evictEarly, hloop]

/-- Visiting a hash twice over: after visits of distinct hashes, the cell of a visited hash is
the one a single visit leaves, every other cell is untouched. -/
theorem cell_visits (h : Hash) {keys : List Hash} (hnodup : keys.Nodup) (t : BookTrace) :
    (keys.foldl (BookTrace.visit c daa cohort) t).book.cell h
      = if h ∈ keys then (t.book.closeOrArm c daa cohort h).book.cell h else t.book.cell h := by
  induction keys generalizing t with
  | nil => rfl
  | cons k keys ih =>
    obtain ⟨hnot, hnodup⟩ := nodup_cons.mp hnodup
    rw [foldl_cons, ih hnodup]
    by_cases hk : h = k
    · subst hk
      rw [if_neg hnot, if_pos mem_cons_self]
      rfl
    · have hcell : (t.visit c daa cohort k).book.cell h = t.book.cell h :=
        (closeOrArm_touches cohort k c daa t.book).cell k hk
      simp only [mem_cons, hk, false_or]
      split
      · exact cell_closeOrArm_congr cohort h hcell
      · exact hcell

/-- The visits of a block act on every cell as a visit of its hash. -/
theorem cell_visitAll (h : Hash) (t : BookTrace) :
    (t.book.pending.keys.foldl (BookTrace.visit c daa cohort) t).book.cell h
      = (t.book.closeOrArm c daa cohort h).book.cell h := by
  rw [cell_visits cohort h (nodup_keys _)]
  split
  · rfl
  · next hnot =>
    rw [not_mem_keys_iff] at hnot
    simp only [closeOrArm, hnot]

/-- The request book once the block's requests and responses are in, before the ceiling. -/
def answeredBook (c : LedgerConfig) (i : FoldInput) (b : RequestBook) : RequestBook :=
  (i.responses.foldl (AnswerTrace.answer c i.daa) { book := b.admitAll c i }).book

/-- **One block keeps the agreement** of two books on a hash, if it does once the expired entries
are forgotten, no request of the block was admitted before, and neither book reaches the ceiling on
early answers. -/
theorem cell_replay_congr (hcell : ((b.recordProducers i.producers).expire c i.daa).cell h
      = ((b'.recordProducers i.producers).expire c i.daa).cell h)
    (hnodup : (i.requests.map Prod.fst).Nodup)
    (hfresh : ∀ rq ∈ i.requests, b.audited.contains rq.1 = false)
    (hfresh' : ∀ rq ∈ i.requests, b'.audited.contains rq.1 = false)
    (hsize : (b.answeredBook c i).earlyResponses.size ≤ maxEarlyResponseHashes)
    (hsize' : (b'.answeredBook c i).earlyResponses.size ≤ maxEarlyResponseHashes) :
    (b.admitAll c i).cell h = (b'.admitAll c i).cell h ∧
      (b.replay c i cohort).book.cell h = (b'.replay c i cohort).book.cell h := by
  have hforget : ∀ (x : RequestBook), (∀ rq ∈ i.requests, x.audited.contains rq.1 = false) →
      ∀ rq ∈ i.requests,
        ((x.recordProducers i.producers).expire c i.daa).audited.contains rq.1 = false := by
    intro x hx rq hrq
    have hnone := contains_eq_false.mp (hx rq hrq)
    rw [contains_eq_false]
    simp only [expire, recordProducers]
    split
    · rw [get?_filter, hnone]
      rfl
    · exact hnone
  have hopened : (b.admitAll c i).cell h = (b'.admitAll c i).cell h :=
    cell_admitRequests_congr i.requestRewards hnodup (hforget b hfresh) (hforget b' hfresh') hcell
  have hanswered : (b.answeredBook c i).cell h = (b'.answeredBook c i).cell h :=
    foldl_rel (l := i.responses) (r := fun t t' : AnswerTrace => t.book.cell h = t'.book.cell h)
      hopened fun resp _ _ _ hcell => cell_answer_congr hcell resp
  have hbook : (b.answerAll c i).book = b.answeredBook c i := evictEarly_of_le hsize
  have hbook' : (b'.answerAll c i).book = b'.answeredBook c i := evictEarly_of_le hsize'
  refine ⟨hopened, ?_⟩
  simp only [RequestBook.replay]
  rw [cell_visitAll, cell_visitAll, hbook, hbook']
  exact cell_closeOrArm_congr cohort h hanswered

end RequestBook

/-! ### Provenance -/

/-- Where the entries of a request book come from: a pending entry was accepted at its score,
an early answer stems from a response at its stamp, and a remembered hash was admitted. No payout
script is recorded. -/
structure Provenance (accepted answered : Hash → ℕ → Prop) (admitted : Hash → Prop)
    (b : RequestBook) : Prop where
  accepted : ∀ h r, b.pending.get? h = some r → accepted h r.acceptedDaa
  answered : ∀ h e, b.earlyResponses.get? h = some e → answered h e.1
  admitted : ∀ h, b.audited.contains h = true → admitted h
  scripts : b.producerSpk = .empty

namespace Provenance

variable {A R : Hash → ℕ → Prop} {B : Hash → Prop} {b : RequestBook} {c : LedgerConfig} {daa : ℕ}

/-- The provenance of a book in which nothing is past its horizon at a score. -/
abbrev Current (A R : Hash → ℕ → Prop) (B : Hash → Prop) (daa : ℕ) : RequestBook → Prop :=
  Provenance (fun h a => A h a ∧ daa < a + serviceLedgerHorizonDaa)
    (fun h s => R h s ∧ daa < s + serviceEarlyResponseHorizonDaa) B

/-- The empty book comes from nowhere. -/
theorem empty : Provenance A R B {} where
  accepted h r hr := by cases hr
  answered h e he := by cases he
  admitted h hh := by cases hh
  scripts := rfl

section

variable (hp : Provenance A R B b)
include hp

theorem imp {A' R' : Hash → ℕ → Prop} {B' : Hash → Prop} (hA : ∀ h a, A h a → A' h a)
    (hR : ∀ h s, R h s → R' h s) (hB : ∀ h, B h → B' h) : Provenance A' R' B' b where
  accepted h r hr := hA _ _ (hp.accepted h r hr)
  answered h e he := hR _ _ (hp.answered h e he)
  admitted h hh := hB _ (hp.admitted h hh)
  scripts := hp.scripts

/-- Writing one pending entry. -/
theorem insertPending {rh : Hash} {req : PendingRequest} (hA : A rh req.acceptedDaa) :
    Provenance A R B { b with pending := b.pending.insert rh req } :=
  ⟨fun _ _ hr => forall_get?_insert hr hA hp.accepted, hp.answered, hp.admitted, hp.scripts⟩

/-- What survives the horizons at a score is inside them. -/
theorem expire (c : LedgerConfig) (daa : ℕ) :
    Current A R B daa (b.expire c daa) where
  accepted h r hr := by
    obtain ⟨hget, hin⟩ := of_get?_filter hr
    exact ⟨hp.accepted h r hget, of_decide_eq_true hin⟩
  answered h e he := by
    obtain ⟨hget, hin⟩ := of_get?_filter he
    exact ⟨hp.answered h e hget, of_decide_eq_true hin⟩
  admitted h hh := by
    refine hp.admitted h ?_
    rw [contains_eq_true] at hh ⊢
    obtain ⟨seen, hseen⟩ := hh
    simp only [RequestBook.expire] at hseen
    split at hseen
    · exact ⟨seen, (of_get?_filter hseen).1⟩
    · exact ⟨seen, hseen⟩
  scripts := hp.scripts

/-- Admitting a request accepted at this score. -/
theorem admitRequest (requestRewards : List (Hash × ℕ)) {rq : Hash × ℕ × ℕ} (hA : A rq.1 daa)
    (hB : B rq.1) :
    Provenance A R B (b.admitRequest c daa requestRewards rq) := by
  have hadmitted : ∀ h, (b.admitRequest c daa requestRewards rq).audited.contains h = true →
      B h := by
    intro h hh
    rcases audited_admitRequest hh with rfl | hold
    · exact hB
    · exact hp.admitted h hold
  by_cases hagain : c.gatedAt daa ∧ b.audited.contains rq.1
  · simpa only [RequestBook.admitRequest, if_pos hagain] using hp
  · simp only [RequestBook.admitRequest, if_neg hagain] at hadmitted ⊢
    refine ⟨fun _ _ hr => forall_get?_insert hr ?_ hp.accepted,
      fun h e he => hp.answered h e (of_get?_erase he), hadmitted, hp.scripts⟩
    -- The entry is an old one or opened here; only its early answers change.
    have hold : A rq.1 ((b.pending.get? rq.1).getD
        (openRequest daa requestRewards rq)).acceptedDaa := by
      cases hget : b.pending.get? rq.1 with
      | none => exact hA
      | some r => exact hp.accepted _ _ hget
    split <;> exact hold

/-- Folding a response at this score. -/
theorem respond {rh : Hash} (r : Hash) (hR : R rh daa) :
    Provenance A R B (b.respond daa rh r).1 := by
  simp only [RequestBook.respond]
  split
  · refine ⟨hp.accepted, fun h e he => ?_, hp.admitted, hp.scripts⟩
    simp only [parkEarly, get?_insert] at he
    split at he
    · next heq =>
      cases he
      subst heq
      cases hget : b.earlyResponses.get? h with
      | none => exact hR
      | some e => exact hp.answered h e hget
    · exact hp.answered h e he
  · next req hget => split <;> exact hp.insertPending (hp.accepted rh req hget)

/-- Awarding a request changes its winner only. -/
theorem awardFirst (rh : Hash) (credited : List Hash) :
    Provenance A R B (b.awardFirst c rh credited).1 := by
  obtain h | ⟨req, winner, hget, -, h⟩ := awardFirst_cases c b rh credited
  · exact h ▸ hp
  · exact h ▸ hp.insertPending (hp.accepted rh req hget)

/-- Visiting a pending request. -/
theorem closeOrArm (cohort : ℕ → List (Hash × Hash)) (rh : Hash) :
    Provenance A R B (b.closeOrArm c daa cohort rh).book := by
  obtain h | ⟨silent, h⟩ | ⟨req, window, hget, -, h⟩ := closeOrArm_cases cohort rh c daa b
  · exact h ▸ hp
  · exact h ▸ ⟨fun k r hr => hp.accepted k r (of_get?_erase hr), hp.answered, hp.admitted,
      hp.scripts⟩
  · rw [h]
    refine awardFirst (hp.insertPending ?_) rh _
    exact hp.accepted rh req hget

end

/-- Answering a response at this score. -/
theorem answer (hp : Provenance A R B t.book) {resp : Hash × Option Hash}
    (hR : resp.2.isSome → R resp.1 daa) : Provenance A R B (t.answer c daa resp).book := by
  obtain ⟨rh, none | r⟩ := resp
  · exact hp
  · exact (hp.respond r (hR rfl)).awardFirst rh _

/-- The requests and responses of a block without producers. -/
theorem answeredBook (hp : Provenance A R B b) (hnone : i.producers = [])
    (hA : ∀ rq ∈ i.requests, A rq.1 i.daa ∧ B rq.1)
    (hR : ∀ resp ∈ i.responses, resp.2.isSome → R resp.1 i.daa) :
    Current A R B i.daa (b.admitAll c i) ∧ Current A R B i.daa (b.answeredBook c i) := by
  have hopened : Current A R B i.daa (b.admitAll c i) := by
    unfold admitAll
    rw [hnone]
    refine foldlRecOn _ _ (hp.expire c i.daa) ?_
    intro x hx rq hrq
    exact hx.admitRequest i.requestRewards
      ⟨(hA rq hrq).1, Nat.lt_add_of_pos_right (by decide)⟩ (hA rq hrq).2
  refine ⟨hopened, ?_⟩
  refine foldlRecOn _ _ (motive := fun t : AnswerTrace => Provenance _ _ B t.book) hopened ?_
  intro t ht resp hresp
  exact ht.answer fun hsome => ⟨hR resp hresp hsome, Nat.lt_add_of_pos_right (by decide)⟩

/-- The number of early hashes once the responses of a block are in: at most the distinct
hashes answered inside the early horizon. -/
theorem size_early_le (hp : Provenance A R B b) {l : List Hash} (hl : ∀ h s, R h s → h ∈ l) :
    b.earlyResponses.size ≤ l.dedup.length :=
  size_le_of_keys_subset fun h e he => hl h e.1 (hp.answered h e he)

/-- **One block keeps the provenance** of every entry, below the ceiling on early answers. -/
theorem replay (hp : Provenance A R B b) (hnone : i.producers = [])
    (cohort : ℕ → List (Hash × Hash)) (hA : ∀ rq ∈ i.requests, A rq.1 i.daa ∧ B rq.1)
    (hR : ∀ resp ∈ i.responses, resp.2.isSome → R resp.1 i.daa)
    (hsize : (b.answeredBook c i).earlyResponses.size ≤ maxEarlyResponseHashes) :
    Provenance A R B (b.replay c i cohort).book := by
  have hbook : (b.answerAll c i).book = b.answeredBook c i := evictEarly_of_le hsize
  have hanswered : Provenance A R B (b.answeredBook c i) :=
    (hp.answeredBook hnone hA hR).2.imp (fun _ _ h => h.1) (fun _ _ h => h.1) fun _ h => h
  refine foldlRecOn _ _ (motive := fun t : BookTrace => Provenance A R B t.book)
    (hbook ▸ hanswered) ?_
  intro t ht rh _
  exact ht.closeOrArm cohort rh

end Provenance

/-! ### Traces -/

namespace RequestBook

variable {c : LedgerConfig} {daa : ℕ} (early : OrdMap Hash (ℕ × List Hash))
  (audited : OrdMap Hash ℕ)

/-- A response reads and writes the pending entries alone, parked answers apart. -/
theorem respond_setEarly (b : RequestBook) (daa : ℕ) (rh r : Hash) :
    ∃ early', ({ b with earlyResponses := early, audited } : RequestBook).respond daa rh r
      = ({ (b.respond daa rh r).1 with earlyResponses := early', audited },
          (b.respond daa rh r).2) := by
  simp only [respond]
  split
  · exact ⟨_, rfl⟩
  · split <;> exact ⟨_, rfl⟩

/-- An award reads the pending entries and the payout script of the winner. -/
theorem awardFirst_setEarly (b : RequestBook) (rh : Hash) (credited : List Hash) :
    ({ b with earlyResponses := early, audited } : RequestBook).awardFirst c rh credited
      = ({ (b.awardFirst c rh credited).1 with earlyResponses := early, audited },
          (b.awardFirst c rh credited).2) := by
  simp only [awardFirst, maybeAward]
  cases credited.head? with
  | none => rfl
  | some first =>
    cases c.rewardRoutingDaa with
    | none => rfl
    | some routedFrom =>
      cases b.pending.get? rh with
      | none => rfl
      | some req =>
        simp only
        split <;> rfl

/-- So does a visit. -/
theorem closeOrArm_setEarly (b : RequestBook) (cohort : ℕ → List (Hash × Hash)) (rh : Hash) :
    ({ b with earlyResponses := early, audited } : RequestBook).closeOrArm c daa cohort rh
      = { b.closeOrArm c daa cohort rh with
          book := { (b.closeOrArm c daa cohort rh).book with
            earlyResponses := early, audited } } := by
  simp only [closeOrArm]
  split
  · rfl
  · split
    · split <;> rfl
    · split
      · split
        · rfl
        · rw [awardFirst_setEarly early audited { b with pending := b.pending.insert rh _ }]
      · rfl

end RequestBook

/-- Two traces with the same pending entries, payout scripts, credits and rewards so far. -/
structure SameTrace (t t' : AnswerTrace) : Prop where
  book : ∃ earlyResponses audited, t'.book = { t.book with earlyResponses, audited }
  credits : t.credits = t'.credits
  rewards : t.rewards = t'.rewards

/-- Two traces that also have the same closings and arming credits. -/
structure SameBookTrace (t t' : BookTrace) : Prop
    extends SameTrace t.toAnswerTrace t'.toAnswerTrace where
  closings : t.closings = t'.closings
  armCredits : t.armCredits = t'.armCredits

section SameTraces

variable {c : LedgerConfig}

/-- One response: the traces stay the same. -/
theorem SameTrace.answer {t' : AnswerTrace} (hsame : SameTrace t t') (daa : ℕ)
    (resp : Hash × Option Hash) : SameTrace (t.answer c daa resp) (t'.answer c daa resp) := by
  obtain ⟨rh, none | r⟩ := resp
  · exact hsame
  · obtain ⟨⟨early, audited, hbook⟩, hcredits, hrewards⟩ := hsame
    obtain ⟨early', hrespond⟩ := respond_setEarly early audited t.book daa rh r
    simp only [AnswerTrace.answer, hbook, hrespond, awardFirst_setEarly, hcredits, hrewards]
    exact ⟨⟨_, _, rfl⟩, rfl, rfl⟩

/-- One visit: the traces stay the same. -/
theorem SameBookTrace.visit {t t' : BookTrace} (hsame : SameBookTrace t t') (daa : ℕ)
    (cohort : ℕ → List (Hash × Hash)) (rh : Hash) :
    SameBookTrace (t.visit c daa cohort rh) (t'.visit c daa cohort rh) := by
  obtain ⟨⟨⟨early, audited, hbook⟩, hcredits, hrewards⟩, hclosings, harmCredits⟩ := hsame
  simp only [BookTrace.visit, hbook, closeOrArm_setEarly, hcredits, hrewards, hclosings,
    harmCredits]
  exact ⟨⟨⟨_, _, rfl⟩, rfl, rfl⟩, rfl, rfl⟩

/-- **Same pending entries, same trace**: two books with the same pending entries and payout
scripts once a block's requests are admitted produce the same trace of the block. -/
theorem SameBookTrace.replay {b b' : RequestBook} (cohort : ℕ → List (Hash × Hash))
    (hpending : (b'.admitAll c i).pending = (b.admitAll c i).pending)
    (hspk : (b'.admitAll c i).producerSpk = (b.admitAll c i).producerSpk) :
    SameBookTrace (b.replay c i cohort) (b'.replay c i cohort) := by
  have hstart : SameTrace { book := b.admitAll c i } { book := b'.admitAll c i } :=
    ⟨⟨(b'.admitAll c i).earlyResponses, (b'.admitAll c i).audited,
      by simp only [← hpending, ← hspk]⟩, rfl, rfl⟩
  obtain ⟨⟨early, audited, hbook⟩, hcredits, hrewards⟩ :=
    foldl_rel (l := i.responses) hstart fun resp _ _ _ hsame => hsame.answer (c := c) i.daa resp
  have hanswered : SameBookTrace (b.answerAll c i) (b'.answerAll c i) :=
    ⟨⟨⟨_, _, (congrArg evictEarly hbook :)⟩, hcredits, hrewards⟩, rfl, rfl⟩
  have hkeys : (b'.answerAll c i).book.pending.keys = (b.answerAll c i).book.pending.keys := by
    obtain ⟨early, audited, hbook⟩ := hanswered.book
    rw [hbook]
  simp only [RequestBook.replay]
  rw [hkeys]
  exact foldl_rel hanswered fun rh _ _ _ hsame => hsame.visit i.daa cohort rh

end SameTraces

end KeryxNode
