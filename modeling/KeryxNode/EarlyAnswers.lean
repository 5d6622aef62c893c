import KeryxNode.AuditFairness
import KeryxNode.WarmupRefold

/-!
# Early Answers

An answer may be folded before its request. It is then held under the hash of the request, with the
other early answers to it and the score of the first of them, and handed to the entry that the
request opens. The score of the first answer decides when all of them expire.

## Main results

* `early_answers_kept`: an early answer whose first companion is young enough is credited.
* `early_answer_lost`: a second answer expires with the first one.
-/

namespace KeryxNode

open List OrdMap RequestBook

/-! ### Answers that are held -/

/-- A request that is not pending, with answers held for it that outlive score `a`; the keys in
`heard` are among them. -/
structure Kept (a : ℕ) (heard : Hash → Prop) (rh : Hash) (b : RequestBook) : Prop where
  idle : b.pending.get? rh = none
  young : ∀ e, b.earlyResponses.get? rh = some e → a < e.1 + serviceEarlyResponseHorizonDaa
  held : ∀ key, heard key → ∃ e, b.earlyResponses.get? rh = some e ∧ key ∈ e.2

namespace Kept

variable {a daa : ℕ} {heard heard' : Hash → Prop} {rh : Hash} {b b' : RequestBook}
  {c : LedgerConfig} {i : FoldInput}

theorem mono (h : Kept a heard rh b) (hheard : ∀ key, heard' key → heard key) :
    Kept a heard' rh b :=
  ⟨h.idle, h.young, fun key hkey => h.held key (hheard key hkey)⟩

theorem of_cell (h : Kept a heard rh b) (hcell : b'.cell rh = b.cell rh) :
    Kept a heard rh b' := by
  obtain ⟨hpending, hearly⟩ := Prod.mk.inj hcell
  exact ⟨hpending.trans h.idle, hearly ▸ h.young, hearly ▸ h.held⟩

/-- Nothing of it expires up to the score. -/
theorem expire (h : Kept a heard rh b) (hdaa : daa ≤ a) : Kept a heard rh (b.expire c daa) := by
  refine h.of_cell (Prod.ext ?_ ?_)
  · simp only [RequestBook.expire, cell, get?_filter, h.idle, Option.filter_none]
  · simp only [RequestBook.expire, cell, get?_filter]
    cases he : b.earlyResponses.get? rh with
    | none => rfl
    | some e =>
      exact Option.filter_eq_some_iff.mpr ⟨rfl, decide_eq_true (hdaa.trans_lt (h.young e he))⟩

/-- A response to the request joins the answers held, or is the first of them. -/
theorem answer {t : AnswerTrace} (h : Kept a heard rh t.book)
    (hdaa : a < daa + serviceEarlyResponseHorizonDaa) (resp : Hash × Option Hash) :
    Kept a (fun key => heard key ∨ resp = (rh, some key)) rh (t.answer c daa resp).book := by
  by_cases hresp : ∃ r, resp = (rh, some r)
  · obtain ⟨r, rfl⟩ := hresp
    simp only [AnswerTrace.answer, respond, h.idle, awardFirst, head?_nil, parkEarly]
    refine ⟨h.idle, fun e he => ?_, fun key hkey => ⟨_, get?_insert_self _ _ _, ?_⟩⟩
    · obtain rfl := Option.some.inj ((get?_insert_self _ _ _).symm.trans he)
      cases hget : t.book.earlyResponses.get? rh with
      | none => exact hdaa
      | some e => exact h.young e hget
    · rw [mem_pushNew]
      refine hkey.imp (fun hkey => ?_) fun heq => ?_
      · obtain ⟨e, he, hmem⟩ := h.held key hkey
        rwa [he]
      · exact (Option.some.inj (Prod.mk.inj heq).2).symm
  · have hne : ∀ r, resp ≠ (rh, some r) := fun r hr => hresp ⟨r, hr⟩
    exact (h.of_cell (cell_answer_of_ne hne)).mono fun key hkey => hkey.resolve_right (hne key)

theorem answers {t : AnswerTrace} (h : Kept a heard rh t.book)
    (hdaa : a < daa + serviceEarlyResponseHorizonDaa) (responses : List (Hash × Option Hash)) :
    Kept a (fun key => heard key ∨ (rh, some key) ∈ responses) rh
      (responses.foldl (AnswerTrace.answer c daa) t).book := by
  induction responses generalizing t heard with
  | nil => exact h.mono fun key hkey => hkey.resolve_right not_mem_nil
  | cons resp responses ih =>
    refine (ih (h.answer hdaa resp)).mono fun key hkey => ?_
    rwa [mem_cons, ← or_assoc, eq_comm (b := resp)] at hkey

/-- **One block** without the request, that does not reach the ceiling, keeps the answers held and
those of its own responses. -/
theorem replay (h : Kept a heard rh (b.expire c i.daa))
    (hrequests : ∀ rq ∈ i.requests, rq.1 ≠ rh)
    (hdaa : a < i.daa + serviceEarlyResponseHorizonDaa)
    (hroom : (b.answeredBook c i).earlyResponses.size ≤ maxEarlyResponseHashes)
    (cohort : ℕ → List (Hash × Hash)) :
    Kept a (fun key => heard key ∨ (rh, some key) ∈ i.responses) rh
      (b.replay c i cohort).book := by
  have hadmitted : Kept a heard rh (b.admitAll c i) := by
    refine foldlRecOn _ _ (motive := Kept a heard rh) ⟨h.idle, h.young, h.held⟩ ?_
    exact fun b' hb' rq hrq =>
      hb'.of_cell (cell_admitRequest_of_ne i.requestRewards rq (hrequests rq hrq).symm)
  have hanswered : Kept a _ rh (b.answeredBook c i) :=
    answers (t := { book := b.admitAll c i }) hadmitted hdaa i.responses
  have hbook : (b.answerAll c i).book = b.answeredBook c i := evictEarly_of_le hroom
  refine hanswered.of_cell ((cell_visitAll cohort rh (b.answerAll c i)).trans ?_)
  simp only [closeOrArm, hbook, hanswered.idle]

end Kept

/-! ### Runs -/

/-- No fold of a run finds more hashes held early than the ceiling allows. -/
def heldWithin : ServiceLedger → List LedgerFold → Bool
  | _, [] => true
  | L, f :: folds => decide ((L.toRequestBook.answeredBook L.toLedgerConfig
      f.input).earlyResponses.size ≤ maxEarlyResponseHashes) && heldWithin (L.apply f).1 folds

theorem heldWithin_append (L : ServiceLedger) (folds folds' : List LedgerFold) :
    heldWithin L (folds ++ folds') = (heldWithin L folds && heldWithin (L.after folds) folds') := by
  induction folds generalizing L with
  | nil => rfl
  | cons f folds ih => rw [cons_append, heldWithin, heldWithin, ih, Bool.and_assoc]; rfl

/-- **A run** that does not accept the request keeps what is held. -/
theorem Kept.after {a : ℕ} {heard : Hash → Prop} {rh : Hash} {L : ServiceLedger}
    {folds : List LedgerFold} (h : Kept a heard rh L.toRequestBook)
    (hfolds : ∀ f ∈ folds, f.daa ≤ a ∧ a < f.daa + serviceEarlyResponseHorizonDaa ∧
      ∀ rq ∈ f.input.requests, rq.1 ≠ rh) (hroom : heldWithin L folds = true) :
    Kept a heard rh (L.after folds).toRequestBook := by
  induction folds generalizing L with
  | nil => exact h
  | cons f folds ih =>
    obtain ⟨⟨hle, hlt, hrequests⟩, hrest⟩ := forall_mem_cons.mp hfolds
    rw [heldWithin, Bool.and_eq_true, decide_eq_true_eq] at hroom
    refine ih ?_ hrest hroom.2
    rw [ServiceLedger.book_apply]
    exact ((h.expire hle).replay hrequests hlt hroom.1 f.cohort).mono fun _ => .inl

/-- **Early answers are kept.** A fold of a run, none of whose folds so far meets the ceiling on
held hashes, holds a response by key `r` to a request that is not pending. If the request is next
accepted by `opening`, less than the early horizon after the response and after the first response
still held beside it, whoever delegates to `r` in the cohort of its audit is credited when the audit
is armed, and is not missed when it closes. -/
theorem early_answers_kept {L : ServiceLedger} {rh r id : Hash}
    {earlier between waiting : List LedgerFold} {f opening arming : LedgerFold}
    {set : List (Hash × Hash)}
    (hincr : (f :: (between ++ opening :: (waiting ++ [arming]))).Pairwise fun g g' =>
      g.daa < g'.daa)
    (hroom : heldWithin L (earlier ++ f :: between) = true)
    (hresp : (rh, some r) ∈ f.input.responses)
    (hidle : ((L.after earlier).toRequestBook.expire (L.after earlier).toLedgerConfig
      f.daa).pending.get? rh = none)
    (hfirst : ∀ g ∈ f :: between, ∀ rq ∈ g.input.requests, rq.1 ≠ rh)
    (hnear : opening.daa < f.daa + serviceEarlyResponseHorizonDaa)
    (hstamp : ∀ e, ((L.after earlier).toRequestBook.expire (L.after earlier).toLedgerConfig
      f.daa).earlyResponses.get? rh = some e → opening.daa < e.1 + serviceEarlyResponseHorizonDaa)
    (hopens : (L.after (earlier ++ f :: between)).Opens opening rh)
    (harms : (L.after (earlier ++ f :: between ++ opening :: waiting)).Arms arming rh opening.daa
      set) (hid : (id, r) ∈ set) :
    (∃ req a, ((L.after (earlier ++ f :: between ++ opening :: waiting)).apply
        arming).1.pending.get? rh = some req ∧ req.audit = some a ∧ id ∈ a.responded) ∧
      ∀ running closing,
        AuditLife L rh (earlier ++ f :: between) opening waiting arming running closing set →
        ((L.after (earlier ++ f :: between ++ opening :: (waiting ++ arming :: running))).apply
          closing).2.misses.countP (ServiceMiss.isFor rh id) = 0 := by
  obtain ⟨hlater, hrest⟩ := pairwise_cons.mp hincr
  rw [heldWithin_append, heldWithin, Bool.and_eq_true, Bool.and_eq_true, decide_eq_true_eq] at hroom
  obtain ⟨hfirst, hbetween⟩ := forall_mem_cons.mp hfirst
  have hheld : Kept opening.daa (fun key => key = r) rh
      ((L.after earlier).apply f).1.toRequestBook := by
    rw [ServiceLedger.book_apply]
    have hstart : Kept opening.daa (fun _ => False) rh _ := ⟨hidle, hstamp, nofun⟩
    refine (hstart.replay hfirst hnear hroom.2.1 f.cohort).mono ?_
    rintro key rfl
    exact .inr hresp
  have hkept : Kept opening.daa (fun key => key = r) rh
      (L.after (earlier ++ f :: between)).toRequestBook := by
    rw [ServiceLedger.after_append, ServiceLedger.after_cons]
    refine hheld.after (fun g hg => ?_) hroom.2.2
    have hbefore := (pairwise_append.mp hrest).2.2 g hg opening mem_cons_self
    have hafter := hlater g (mem_append_left _ hg)
    exact ⟨hbefore.le, by omega, hbetween g hg⟩
  have hmem : r ∈ (L.after (earlier ++ f :: between)).heldFor opening rh := by
    obtain ⟨e, he, hkey⟩ := (hkept.expire le_rfl).held r rfl
    rw [ServiceLedger.heldFor, he]
    exact hkey
  rw [ServiceLedger.after_append] at harms ⊢
  constructor
  · obtain ⟨req, a, hget, haudit, htracks⟩ := harms.tracks hopens fun g hg =>
      (pairwise_cons.mp (pairwise_append.mp hrest).2.1).1 g (mem_append_left _ hg)
    exact ⟨req, a, hget, haudit, (htracks.responded id).mpr ⟨r, hid, .inl hmem⟩⟩
  · intro running closing life
    obtain ⟨req, a, hreq, haudit, hclosed, htracks⟩ := life.tracks
    obtain ⟨hcount, -⟩ := @ServiceLedger.countP_apply _ closing rh id life.closes.1 req a hreq
      haudit hclosed htracks.nodup_silent
    exact hcount.trans (if_neg fun h => (htracks.mem_silent.mp h.1).2 ⟨r, hid, .inl hmem⟩)

/-- A normal fold. -/
def normalFold (call : FoldCall) : LedgerFold := { toFoldCall := call }

/-- Request 9 is accepted at score `daa`. -/
def acceptFold (daa : ℕ) : LedgerFold := normalFold (cohortBlock { daa, requests := [(9, 0, 0)] })

/-- Nothing is accepted at score `daa`. -/
def idleFold (daa : ℕ) : LedgerFold := normalFold (cohortBlock { daa })

/-- An answer of identity 1, held for half the horizon. -/
theorem early_answers_kept_half :
    ∃ req a, ((({} : ServiceLedger).after [normalFold (answerBlock 100 1), acceptFold 18100]).apply
      (idleFold 18101)).1.pending.get? 9 = some req ∧ req.audit = some a ∧
        (1 : Hash) ∈ a.responded :=
  (@early_answers_kept {} 9 1 1 [] [] [] (normalFold (answerBlock 100 1)) (acceptFold 18100)
    (idleFold 18101) [(1, 1)] (by decide) (by decide +kernel) (by decide) (by decide) (by decide)
    (by decide) (by decide +kernel) ⟨by decide +kernel, by decide +kernel⟩
    ⟨⟨0, 0, 18100, 0, none, none, [1]⟩, by decide +kernel, rfl, by decide, rfl, rfl, by decide⟩
    (by decide)).1

/-- **An early answer that is lost**: identity 1 answers 35999 scores after somebody else, and the
request is accepted one score later. Both answers have expired, and identity 1 is missed. -/
theorem early_answer_lost :
    let before := [normalFold (answerBlock 0 2), normalFold (answerBlock 35999 1)]
    AuditLife {} 9 before (acceptFold 36000) [] (idleFold 36001) [] (idleFold 36302) [(1, 1)] ∧
      heldWithin {} before = true ∧
      ((({} : ServiceLedger).after (before ++ [acceptFold 36000, idleFold 36001])).apply
        (idleFold 36302)).2.misses.countP (ServiceMiss.isFor 9 1) = 1 := by
  refine ⟨⟨by decide, ⟨by decide +kernel, by decide +kernel⟩, ?_, rfl, ?_⟩, by decide +kernel,
    by decide +kernel⟩
  · exact ⟨⟨0, 0, 36000, 0, none, none, []⟩, by decide +kernel, rfl, by decide, rfl, rfl, by decide⟩
  · exact ⟨⟨0, 0, 36000, 0, none, some ⟨[1], [(1, 1)], [], 36301⟩, []⟩, _, by decide +kernel, rfl,
      rfl, by decide⟩

end KeryxNode
