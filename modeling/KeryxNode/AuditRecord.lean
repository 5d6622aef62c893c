import KeryxNode.RequestCells

/-!
# What a Pending Request Has Heard

A response to a request reaches its audit on one of four ways: held for a request that is not
accepted yet, parked on a request whose audit is not armed, credited to a running audit, or
credited in the block that closes it. This module follows the entry of one request from the block
that opens it to the block that closes it and says what is recorded at any time between: the keys
heard so far while it waits, and once it is armed the members of the cohort that delegated to one
of them.

An entry is recognised by the score it was accepted at. A block accepted later opens entries of a
later score, so an entry that is forgotten and opened again is another one.
-/

namespace KeryxNode

open List OrdMap Prod Audit AnswerTrace

variable {id key : Hash}

/-! ### Audits -/

namespace Audit

/-- Adds the members of a cohort among a list of identities, each once. -/
def addMembers (cohort : List Hash) (acc identities : List Hash) : List Hash :=
  identities.foldl (fun acc identity =>
    if identity ∈ cohort ∧ identity ∉ acc then acc ++ [identity] else acc) acc

theorem mem_addMembers {cohort identities acc : List Hash} :
    id ∈ addMembers cohort acc identities ↔ id ∈ acc ∨ (id ∈ identities ∧ id ∈ cohort) := by
  induction identities generalizing acc with
  | nil => simp [addMembers]
  | cons identity identities ih =>
    rw [addMembers, foldl_cons, ← addMembers, ih, mem_cons]
    by_cases heq : id = identity
    · subst heq
      split
      · next hnew => simp [hnew.1]
      · next hold => tauto
    · split <;> simp [heq]

/-- The identities a list of delegations names for a key. -/
theorem mem_matched {delegations : List (Hash × Hash)} :
    id ∈ (delegations.filter fun d => decide (d.1 = key)).map snd ↔
      (key, id) ∈ delegations := by
  simp

/-- A credit changes the members that responded, and nothing else. -/
theorem credit_fst (a : Audit) (r : Hash) :
    (a.credit r).1 = { a with
      responded := addMembers a.cohort a.responded
        ((a.delegations.filter fun d => decide (d.1 = r)).map snd) } := by
  have hrun : ∀ (l : List Hash) (s : Audit × List Hash),
      (l.foldl (fun s identity => if identity ∈ s.1.cohort ∧ identity ∉ s.1.responded then
          ({ s.1 with responded := s.1.responded ++ [identity] }, s.2 ++ [identity])
        else s) s).1 = { s.1 with responded := addMembers s.1.cohort s.1.responded l } := by
    intro l
    induction l with
    | nil => exact fun s => rfl
    | cons identity l ih =>
      intro s
      rw [foldl_cons, ih, addMembers, addMembers, foldl_cons]
      split <;> rfl
  exact hrun _ (a, [])

/-- The members that an arming audit finds to have answered. -/
theorem mem_responded_arm {windowEndDaa : ℕ} {set : List (Hash × Hash)} {early : List Hash} :
    id ∈ (arm windowEndDaa set early).responded ↔
      ∃ key ∈ early, (key, id) ∈ (arm windowEndDaa set early).delegations ∧
        id ∈ (arm windowEndDaa set early).cohort := by
  simp only [arm]
  generalize sortDedupPairs (set.map swap) = delegations
  generalize ((set.map fst).insertionSort (· ≤ ·)).dedup = ids
  have hrun : ∀ (keys acc : List Hash), id ∈ keys.foldl (fun acc key => addMembers ids acc
      ((delegations.filter fun d => decide (d.1 = key)).map snd)) acc ↔
        id ∈ acc ∨ ∃ key ∈ keys, (key, id) ∈ delegations ∧ id ∈ ids := by
    intro keys
    induction keys with
    | nil => simp
    | cons key keys ih =>
      intro acc
      rw [foldl_cons, ih, mem_addMembers, mem_matched, exists_mem_cons_iff, or_assoc]
  refine (hrun early []).trans ?_
  simp only [not_mem_nil, false_or]

end Audit

/-- An audit over the pairs `(identity, key)` of a cohort that has heard some keys: its members are
the identities of the pairs, and those that responded are the ones a heard key speaks for. -/
structure Tracks (set : List (Hash × Hash)) (heard : Hash → Prop) (a : Audit) : Prop where
  nodup : a.cohort.Nodup
  cohort : ∀ id, id ∈ a.cohort ↔ ∃ key, (id, key) ∈ set
  delegations : ∀ key id, (key, id) ∈ a.delegations ↔ (id, key) ∈ set
  responded : ∀ id, id ∈ a.responded ↔ ∃ key, (id, key) ∈ set ∧ heard key

namespace Tracks

variable {set : List (Hash × Hash)} {heard heard' : Hash → Prop} {a : Audit}

theorem congr (h : Tracks set heard a) (hheard : ∀ key, heard key ↔ heard' key) :
    Tracks set heard' a where
  nodup := h.nodup
  cohort := h.cohort
  delegations := h.delegations
  responded id := by simp only [h.responded, hheard]

/-- **Arming** credits whoever answered before the audit existed. -/
theorem arm {windowEndDaa : ℕ} {early : List Hash} (hearly : ∀ key, key ∈ early ↔ heard key) :
    Tracks set heard (Audit.arm windowEndDaa set early) := by
  have hcohort : ∀ id, id ∈ (Audit.arm windowEndDaa set early).cohort ↔
      ∃ key, (id, key) ∈ set := by
    simp [Audit.arm]
  have hdelegations : ∀ key id, (key, id) ∈ (Audit.arm windowEndDaa set early).delegations ↔
      (id, key) ∈ set := by
    simp [Audit.arm, sortDedupPairs]
  refine ⟨nodup_dedup _, hcohort, hdelegations, fun id => ?_⟩
  rw [Audit.mem_responded_arm]
  constructor
  · rintro ⟨key, hkey, hpair, -⟩
    exact ⟨key, (hdelegations key id).mp hpair, (hearly key).mp hkey⟩
  · rintro ⟨key, hpair, hkey⟩
    exact ⟨key, (hearly key).mpr hkey, (hdelegations key id).mpr hpair,
      (hcohort id).mpr ⟨key, hpair⟩⟩

/-- **A credit** adds one heard key. -/
theorem credit (h : Tracks set heard a) (r : Hash) :
    Tracks set (fun key => heard key ∨ key = r) (a.credit r).1 := by
  rw [credit_fst]
  refine ⟨h.nodup, h.cohort, h.delegations, fun id => ?_⟩
  rw [mem_addMembers, h.responded, mem_matched, h.delegations, h.cohort]
  simp only [and_or_left, exists_or, exists_eq_right]
  exact or_congr_right (and_iff_left_of_imp fun hpair => ⟨r, hpair⟩)

/-- The silent members are those no heard key speaks for. -/
theorem mem_silent (h : Tracks set heard a) :
    id ∈ a.silent ↔ (∃ key, (id, key) ∈ set) ∧ ¬ ∃ key, (id, key) ∈ set ∧ heard key := by
  rw [silent, mem_filter, decide_eq_true_eq, h.cohort, h.responded]

theorem nodup_silent (h : Tracks set heard a) : a.silent.Nodup :=
  h.nodup.filter _

end Tracks

/-! ### The entry of one request -/

/-- A property of the entry of `rh` that was accepted at `s`, as long as it is pending, and of the
answers held for `rh`. -/
def Follows (s : ℕ) (P : PendingRequest → Option (ℕ × List Hash) → Prop) (rh : Hash)
    (b : RequestBook) : Prop :=
  ∀ req, b.pending.get? rh = some req → req.acceptedDaa = s → P req (b.earlyResponses.get? rh)

/-- An entry that is not armed has parked the keys heard so far, and nothing is held beside it. -/
def Waiting (heard : Hash → Prop) (req : PendingRequest) (early : Option (ℕ × List Hash)) :
    Prop :=
  req.audit = none → early = none ∧ ∀ key, key ∈ req.earlyResponders ↔ heard key

/-- An armed entry tracks the keys heard so far. -/
def Armed (set : List (Hash × Hash)) (heard : Hash → Prop) (req : PendingRequest)
    (_early : Option (ℕ × List Hash)) : Prop :=
  ∃ a, req.audit = some a ∧ Tracks set heard a

theorem mem_pushNew {l : List Hash} {k : Hash} : key ∈ pushNew l k ↔ key ∈ l ∨ key = k := by
  rw [pushNew]
  split
  · next hmem => exact (or_iff_left_of_imp fun heq => heq ▸ hmem).symm
  · rw [mem_append, mem_singleton]

theorem mem_foldl_pushNew {keys l : List Hash} :
    key ∈ keys.foldl pushNew l ↔ key ∈ l ∨ key ∈ keys := by
  induction keys generalizing l with
  | nil => simp
  | cons k keys ih => rw [foldl_cons, ih, mem_pushNew, mem_cons, or_assoc]

/-- A pending request after a response: it is parked, or credited to the audit. -/
def PendingRequest.answered (req : PendingRequest) (r : Hash) (winner : Option Hash) :
    PendingRequest :=
  { req with
    winner := winner
    audit := req.audit.map fun a => (a.credit r).1
    earlyResponders := if req.audit = none then pushNew req.earlyResponders r
      else req.earlyResponders }

namespace RequestBook

variable {b : RequestBook} {c : LedgerConfig} {daa : ℕ} {rh : Hash}
  {requestRewards : List (Hash × ℕ)} {rq : Hash × ℕ × ℕ} {t : AnswerTrace}

/-- What an admission makes of the entry of its request: one that is not armed takes over the
answers held. -/
def admittedEntry (daa : ℕ) (requestRewards : List (Hash × ℕ)) (rq : Hash × ℕ × ℕ)
    (pending : Option PendingRequest) (early : Option (ℕ × List Hash)) : PendingRequest :=
  let entry := pending.getD (openRequest daa requestRewards rq)
  if entry.audit.isNone then
    { entry with earlyResponders :=
        ((early.map snd).getD []).foldl pushNew entry.earlyResponders }
  else entry

/-- An admission leaves a cell alone, or it opens or keeps the entry. -/
theorem cell_admitRequest_cases (rh : Hash) (requestRewards : List (Hash × ℕ))
    (rq : Hash × ℕ × ℕ) :
    (b.admitRequest c daa requestRewards rq).cell rh = b.cell rh ∨
      (b.admitRequest c daa requestRewards rq).cell rh = (some (admittedEntry daa requestRewards rq
        (b.pending.get? rh) (b.earlyResponses.get? rh)), none) := by
  by_cases hrh : rh = rq.1
  · rw [admitRequest, hrh]
    split
    · exact .inl rfl
    · exact .inr (by simp only [cell, get?_insert_self, get?_erase_self]; rfl)
  · exact .inl (cell_admitRequest_of_ne requestRewards rq hrh)

/-- An entry is kept as it is if it is armed or nothing is held beside it. -/
theorem admittedEntry_some {req : PendingRequest} {early : Option (ℕ × List Hash)}
    (h : req.audit = none → early = none) :
    admittedEntry daa requestRewards rq (some req) early = req := by
  rw [admittedEntry]
  split
  · next haudit =>
    rw [h (Option.isNone_iff_eq_none.mp haudit)]
    rfl
  · rfl

theorem acceptedDaa_admittedEntry (pending : Option PendingRequest)
    (early : Option (ℕ × List Hash)) :
    (admittedEntry daa requestRewards rq pending early).acceptedDaa
      = (pending.getD (openRequest daa requestRewards rq)).acceptedDaa := by
  rw [admittedEntry]
  split <;> rfl

/-- What is held after the ceiling was held before. -/
theorem of_get?_evictLoop {fuel : ℕ} {early : OrdMap Hash (ℕ × List Hash)} {e : ℕ × List Hash}
    (he : (evictLoop fuel early).get? rh = some e) : early.get? rh = some e := by
  induction fuel generalizing early with
  | zero => exact he
  | succ fuel ih =>
    rw [evictLoop] at he
    split at he
    · have hleft := ih he
      rw [evictOldest] at hleft
      split at hleft
      · exact hleft
      · exact of_get?_erase hleft
    · exact he

theorem early_evictEarly_of_none (hnone : b.earlyResponses.get? rh = none) :
    b.evictEarly.earlyResponses.get? rh = none := by
  refine Option.eq_none_iff_forall_ne_some.mpr fun e he => ?_
  cases hnone.symm.trans (of_get?_evictLoop he)

/-- An award changes the winner of an entry at most. -/
theorem pending_awardFirst {req : PendingRequest} (hreq : b.pending.get? rh = some req)
    (credited : List Hash) :
    ∃ winner, (b.awardFirst c rh credited).1.cell rh
      = (some { req with winner := winner }, b.earlyResponses.get? rh) := by
  obtain h | ⟨req', winner, hreq', -, h⟩ := awardFirst_cases c b rh credited
  · exact ⟨req.winner, by rw [h, cell, hreq]⟩
  · obtain rfl := Option.mem_unique hreq hreq'
    exact ⟨some winner, by rw [h, cell, get?_insert_self]⟩

/-- **One response** to a pending request: it is parked on a waiting entry, credited to a running
audit. -/
theorem cell_answer {req : PendingRequest} {r : Hash} (hreq : t.book.pending.get? rh = some req) :
    ∃ winner, (t.answer c daa (rh, some r)).book.cell rh
      = (some (req.answered r winner), t.book.earlyResponses.get? rh) := by
  obtain ⟨tier, maxTokens, acceptedDaa, reward, winner, _ | a, earlyResponders⟩ := req
  · refine ⟨winner, ?_⟩
    simp only [answer, respond, hreq, awardFirst, head?_nil, cell,
      get?_insert_self, PendingRequest.answered, Option.map_none, if_true]
  · simp only [answer, respond, hreq]
    have hget := get?_insert_self t.book.pending rh
      (⟨tier, maxTokens, acceptedDaa, reward, winner, some (a.credit r).1, earlyResponders⟩ :
        PendingRequest)
    exact @pending_awardFirst { t.book with pending := t.book.pending.insert rh _ } c rh _ hget
      (a.credit r).2

/-- No response opens a pending entry. -/
theorem pending_answer_of_none (hnone : t.book.pending.get? rh = none) (resp : Hash × Option Hash) :
    (t.answer c daa resp).book.pending.get? rh = none := by
  by_cases hresp : ∃ r, resp = (rh, some r)
  · obtain ⟨r, rfl⟩ := hresp
    simp only [answer, respond, hnone, awardFirst, head?_nil]
  · exact (congrArg fst (cell_answer_of_ne fun r hr => hresp ⟨r, hr⟩)).trans hnone

/-- **Arming**: a waiting entry of an earlier block whose tier has a cohort. -/
theorem cell_closeOrArm_arm {cohort : ℕ → List (Hash × Hash)} {req : PendingRequest}
    (hreq : b.pending.get? rh = some req) (haudit : req.audit = none)
    (hlater : req.acceptedDaa < daa) (hset : cohort req.tier ≠ []) :
    ∃ winner windowEndDaa, (b.closeOrArm c daa cohort rh).book.cell rh
      = (some { req with
          winner := winner
          audit := some (.arm windowEndDaa (cohort req.tier) req.earlyResponders)
          earlyResponders := [] }, b.earlyResponses.get? rh) := by
  simp only [closeOrArm, hreq, haudit, if_pos hlater, if_neg hset]
  set audit := arm (daa + serviceWindowDaaAt req.tier req.maxTokens (c.v2At daa))
    (cohort req.tier) req.earlyResponders
  have hget := get?_insert_self b.pending rh
    { req with audit := some audit, earlyResponders := [] }
  obtain ⟨winner, hcell⟩ := @pending_awardFirst { b with pending := b.pending.insert rh _ } c rh _
    hget audit.responded
  exact ⟨winner, _, hcell⟩

/-- A visit leaves an entry alone, drops it, or arms its audit. -/
theorem cell_closeOrArm_cases {cohort : ℕ → List (Hash × Hash)} {req : PendingRequest}
    (hreq : b.pending.get? rh = some req) :
    (b.closeOrArm c daa cohort rh).book.cell rh = b.cell rh ∨
      (b.closeOrArm c daa cohort rh).book.pending.get? rh = none ∨
      (req.audit = none ∧ ∃ winner audit, (b.closeOrArm c daa cohort rh).book.cell rh
        = (some { req with winner := winner, audit := some audit, earlyResponders := [] },
            b.earlyResponses.get? rh)) := by
  obtain h | ⟨silent, h⟩ | ⟨req', window, hreq', haudit, h⟩ := closeOrArm_cases cohort rh c daa b
  · exact .inl (by rw [h])
  · exact .inr (.inl (by rw [h, get?_erase_self]))
  · obtain rfl := Option.mem_unique hreq hreq'
    obtain ⟨winner, hcell⟩ := @pending_awardFirst { b with pending := b.pending.insert rh _ } c rh _
      (get?_insert_self _ _ _) (arm window (cohort req.tier) req.earlyResponders).responded
    exact .inr (.inr ⟨haudit, winner, _, by rw [h, hcell]⟩)

end RequestBook

/-! ### Following an entry through a block -/

/-- A record of an entry, by the keys heard so far, that a later block keeps: nothing is held beside
an entry without audit, and what is held otherwise does not matter; a response adds its key; an
arming leaves the record. -/
structure Phase (P : (Hash → Prop) → PendingRequest → Option (ℕ × List Hash) → Prop) : Prop where
  congr : ∀ {heard heard' req early}, P heard req early → (∀ key, heard key ↔ heard' key) →
    P heard' req early
  of_early : ∀ {heard req early early'}, P heard req early → (early = none → early' = none) →
    P heard req early'
  alone : ∀ {heard req early}, P heard req early → req.audit = none → early = none
  answer : ∀ {heard req early} (r winner), P heard req early →
    P (fun key => heard key ∨ key = r) (req.answered r winner) early
  arm : ∀ {heard req early} (winner audit), P heard req early → req.audit = none →
    P heard { req with winner := winner, audit := some audit, earlyResponders := [] } early

/-- A response to a waiting entry is parked. -/
theorem waiting_phase : Phase Waiting where
  congr h hheard haudit := ⟨(h haudit).1, fun key => ((h haudit).2 key).trans (hheard key)⟩
  of_early h hnone haudit := ⟨hnone (h haudit).1, (h haudit).2⟩
  alone h haudit := (h haudit).1
  answer r winner h haudit := by
    have hnone := Option.map_eq_none_iff.mp haudit
    obtain ⟨hearly, hkeys⟩ := h hnone
    refine ⟨hearly, fun key => ?_⟩
    rw [PendingRequest.answered, if_pos hnone, mem_pushNew, hkeys]
  arm _ _ _ _ haudit := by cases haudit

/-- A response to an armed entry is credited. -/
theorem armed_phase (set : List (Hash × Hash)) : Phase (Armed set) where
  congr := by
    rintro _ _ _ _ ⟨a, haudit, htracks⟩ hheard
    exact ⟨a, haudit, htracks.congr hheard⟩
  of_early h _ := h
  alone := by
    rintro _ _ _ ⟨a, hsome, -⟩ haudit
    cases hsome.symm.trans haudit
  answer := by
    rintro _ _ _ r winner ⟨a, haudit, htracks⟩
    exact ⟨(a.credit r).1, Option.map_eq_some_iff.mpr ⟨a, haudit, rfl⟩, htracks.credit r⟩
  arm := by
    rintro _ _ _ winner audit ⟨a, hsome, -⟩ haudit
    cases hsome.symm.trans haudit

namespace Follows

open RequestBook

variable {s daa : ℕ} {rh : Hash} {b : RequestBook} {c : LedgerConfig} {i : FoldInput}
  {heard : Hash → Prop} {cohort : ℕ → List (Hash × Hash)}
  {P : (Hash → Prop) → PendingRequest → Option (ℕ × List Hash) → Prop}

section

variable (hP : Phase P) (h : Follows s (P heard) rh b)
include h

/-- A followed record depends on the cell of the request alone. -/
theorem of_cell {b' : RequestBook} (hcell : b'.cell rh = b.cell rh) :
    Follows s (P heard) rh b' := by
  obtain ⟨hpending, hearly⟩ := mk.inj hcell
  intro req hreq
  rw [hearly]
  exact h req (hpending ▸ hreq)

include hP

/-- What expires is no longer followed, what is held may expire. -/
theorem forget (producers : List (Hash × ScriptPublicKey)) :
    Follows s (P heard) rh ((b.recordProducers producers).expire c daa) := by
  intro req hreq hs
  refine hP.of_early (h req (of_get?_filter hreq).1 hs) fun hnone => ?_
  simp only [expire, recordProducers, get?_filter, hnone, Option.filter_none]

/-- The requests of a later block leave an entry alone, unless something is held beside it. -/
theorem admitRequests (hs : s ≠ daa) (requestRewards : List (Hash × ℕ))
    (requests : List (Hash × ℕ × ℕ)) :
    Follows s (P heard) rh (requests.foldl (RequestBook.admitRequest c daa requestRewards) b) := by
  refine foldlRecOn _ _ (motive := Follows s (P heard) rh) h fun b hb rq _ => ?_
  obtain hcell | hcell := @cell_admitRequest_cases b c daa rh requestRewards rq
  · exact hb.of_cell hcell
  intro req hreq haccepted
  obtain ⟨hget, hearly⟩ := mk.inj hcell
  obtain rfl := Option.mem_unique hget hreq
  rw [acceptedDaa_admittedEntry] at haccepted
  rw [hearly]
  cases hpending : b.pending.get? rh with
  | none =>
    rw [hpending] at haccepted
    exact absurd haccepted.symm hs
  | some req =>
    rw [hpending] at haccepted
    have hprop := hb req hpending haccepted
    rw [admittedEntry_some (hP.alone hprop)]
    exact hP.of_early hprop fun _ => rfl

/-- The ceiling on held answers keeps what is pending and holds nothing new. -/
theorem evict : Follows s (P heard) rh b.evictEarly :=
  fun req hreq hs => hP.of_early (h req hreq hs) early_evictEarly_of_none

end

/-- **The responses of a block** add the keys that answer the request. -/
theorem answers (hP : Phase P) {t : AnswerTrace} (h : Follows s (P heard) rh t.book)
    (responses : List (Hash × Option Hash)) :
    Follows s (P fun key => heard key ∨ (rh, some key) ∈ responses) rh
      (responses.foldl (answer c daa) t).book := by
  induction responses generalizing t heard with
  | nil => exact fun req hreq hs => hP.congr (h req hreq hs) (by simp)
  | cons resp responses ih =>
    have hone : Follows s (P fun key => heard key ∨ resp = (rh, some key)) rh
        (t.answer c daa resp).book := by
      by_cases hresp : ∃ r, resp = (rh, some r)
      · obtain ⟨r, rfl⟩ := hresp
        cases hpending : t.book.pending.get? rh with
        | none =>
          intro req hreq
          rw [pending_answer_of_none hpending] at hreq
          cases hreq
        | some req =>
          intro req' hreq' hs
          obtain ⟨winner, hcell⟩ := @cell_answer c daa rh t req r hpending
          obtain ⟨hget, hearly⟩ := mk.inj hcell
          obtain rfl := Option.mem_unique hget hreq'
          rw [hearly]
          refine hP.congr (hP.answer r winner (h req hpending hs)) fun key => ?_
          rw [Prod.mk.injEq, Option.some.injEq, eq_comm (a := r)]
          simp only [true_and]
      · have hne : ∀ r, resp ≠ (rh, some r) := fun r hr => hresp ⟨r, hr⟩
        intro req hreq hs
        exact hP.congr (h.of_cell (cell_answer_of_ne hne) req hreq hs)
          fun key => by simp only [hne key, or_false]
    refine fun req hreq hs => hP.congr (ih hone req hreq hs) fun key => ?_
    rw [mem_cons, or_assoc, eq_comm (a := resp)]

/-! ### Whole blocks -/

/-- A visit leaves an entry alone, drops it or arms its audit. -/
theorem visited (hP : Phase P) (h : Follows s (P heard) rh (b.answerAll c i).book) :
    Follows s (P heard) rh (b.replay c i cohort).book := by
  refine of_cell ?_ (cell_visitAll cohort rh (b.answerAll c i))
  cases hpending : (b.answerAll c i).book.pending.get? rh with
  | none =>
    simp only [closeOrArm, hpending]
    exact h
  | some req =>
    rcases @cell_closeOrArm_cases _ c i.daa rh cohort req hpending with
      hsame | hnone | ⟨haudit, winner, audit, hvisited⟩
    · exact h.of_cell hsame
    · intro req' hreq'
      cases hnone.symm.trans hreq'
    · intro req' hreq' hs
      obtain ⟨hget, hearly⟩ := mk.inj hvisited
      obtain rfl := Option.mem_unique hget hreq'
      rw [hearly]
      exact hP.arm winner audit (h req hpending hs) haudit

section

variable (hP : Phase P) (h : Follows s (P heard) rh b)
include hP h

/-- **Before the visits**, a later block has added its responses to an entry. -/
theorem answerAll (hs : s < i.daa) :
    Follows s (P fun key => heard key ∨ (rh, some key) ∈ i.responses) rh
      (b.answerAll c i).book := by
  have hadmitted : Follows s (P heard) rh (b.admitAll c i) :=
    (h.forget hP i.producers).admitRequests hP hs.ne i.requestRewards i.requests
  have hanswered := @answers s i.daa rh c heard P hP { book := b.admitAll c i } hadmitted
    i.responses
  exact hanswered.evict hP

/-- **A later block keeps the record** of an entry. -/
theorem replay (hs : s < i.daa) :
    Follows s (P fun key => heard key ∨ (rh, some key) ∈ i.responses) rh
      (b.replay c i cohort).book :=
  (h.answerAll hP hs).visited hP

end

/-- **The block that arms the audit** credits everything heard before the visits. -/
theorem arm (h : Follows s (Waiting heard) rh (b.answerAll c i).book) {req : PendingRequest}
    (hreq : (b.answerAll c i).book.pending.get? rh = some req) (hs : req.acceptedDaa = s)
    (haudit : req.audit = none) (hlater : s < i.daa) (hset : cohort req.tier ≠ []) :
    ∃ req' a, (b.replay c i cohort).book.pending.get? rh = some req' ∧ req'.audit = some a ∧
      Tracks (cohort req.tier) heard a := by
  obtain ⟨winner, windowEndDaa, hvisited⟩ := @cell_closeOrArm_arm _ c i.daa rh cohort req hreq
    haudit (hs.trans_lt hlater) hset
  obtain ⟨-, hkeys⟩ := h req hreq hs haudit
  have hcell := (cell_visitAll cohort rh (b.answerAll c i)).trans hvisited
  exact ⟨_, _, congrArg fst hcell, rfl, Tracks.arm hkeys⟩

/-- The requests of the block that opens an entry move the held answers to it. -/
theorem opened_admitRequests {daa : ℕ} {held : Option (ℕ × List Hash)}
    (hcell : b.cell rh = (none, held)) (requestRewards : List (Hash × ℕ))
    (requests : List (Hash × ℕ × ℕ)) :
    Follows daa (Waiting fun key => key ∈ (held.map snd).getD []) rh
      (requests.foldl (RequestBook.admitRequest c daa requestRewards) b) := by
  -- Either no request has opened the entry yet, or it has taken the held answers over.
  have hrun : (requests.foldl (.admitRequest c daa requestRewards) b).cell rh
      = (none, held) ∨ ∃ req,
        (requests.foldl (.admitRequest c daa requestRewards) b).cell rh
          = (some req, none) ∧ ∀ key, key ∈ req.earlyResponders ↔
            key ∈ (held.map snd).getD [] := by
    refine foldlRecOn _ _ (motive := fun b' : RequestBook => b'.cell rh = (none, held) ∨
      ∃ req, b'.cell rh = (some req, none) ∧ ∀ key, key ∈ req.earlyResponders ↔
        key ∈ (held.map snd).getD []) (.inl hcell) ?_
    rintro b' hb' rq -
    obtain hsame | hopened := @cell_admitRequest_cases b' c daa rh requestRewards rq
    · rw [hsame]
      exact hb'
    rw [hopened]
    obtain hnone | ⟨req, hreq, hkeys⟩ := hb'
    · obtain ⟨hpending, hearly⟩ := mk.inj hnone
      rw [hpending, hearly]
      refine .inr ⟨_, rfl, fun key => ?_⟩
      exact (mem_foldl_pushNew (l := [])).trans (or_iff_right not_mem_nil)
    · obtain ⟨hpending, hearly⟩ := mk.inj hreq
      rw [hpending, hearly, admittedEntry_some fun _ => rfl]
      exact .inr ⟨req, rfl, hkeys⟩
  intro req hreq _ _
  rcases hrun with hnone | ⟨req', hcell', hkeys⟩
  · cases (congrArg fst hnone).symm.trans hreq
  · obtain ⟨hget, hearly⟩ := mk.inj hcell'
    obtain rfl := Option.mem_unique hget hreq
    exact ⟨hearly, hkeys⟩

/-- **The opening block** leaves an entry that has heard the answers held for its request and the
block's own. -/
theorem opened (hnone : (b.expire c i.daa).pending.get? rh = none) :
    Follows i.daa (Waiting fun key =>
      key ∈ (((b.expire c i.daa).earlyResponses.get? rh).map snd).getD [] ∨
        (rh, some key) ∈ i.responses) rh (b.replay c i cohort).book := by
  have hcell : ((b.recordProducers i.producers).expire c i.daa).cell rh
      = (none, (b.expire c i.daa).earlyResponses.get? rh) :=
    Prod.ext hnone rfl
  have hadmitted : Follows i.daa _ rh (b.admitAll c i) :=
    opened_admitRequests hcell i.requestRewards i.requests
  have hanswered := @answers i.daa i.daa rh c _ Waiting waiting_phase
    { book := b.admitAll c i } hadmitted i.responses
  exact (hanswered.evict waiting_phase).visited waiting_phase

end Follows

/-! ### Held answers -/

/-- Every key held for a request that is not accepted yet has a property. -/
def HeldFrom (K : Hash → Prop) (rh : Hash) (b : RequestBook) : Prop :=
  ∀ e, b.earlyResponses.get? rh = some e → ∀ key ∈ e.2, K key

namespace HeldFrom

open RequestBook

variable {K : Hash → Prop} {rh : Hash} {b : RequestBook} {c : LedgerConfig} {daa : ℕ}

theorem expire (h : HeldFrom K rh b) (c : LedgerConfig) (daa : ℕ) :
    HeldFrom K rh (b.expire c daa) :=
  fun e he => h e (of_get?_filter he).1

/-- An admission takes held answers away at most. -/
theorem admitRequest (h : HeldFrom K rh b) (requestRewards : List (Hash × ℕ))
    (rq : Hash × ℕ × ℕ) : HeldFrom K rh (b.admitRequest c daa requestRewards rq) := by
  intro e he
  rw [RequestBook.admitRequest] at he
  split at he
  · exact h e he
  · exact h e (of_get?_erase he)

/-- A response is held under its own key. -/
theorem answer {t : AnswerTrace} (h : HeldFrom K rh t.book) {resp : Hash × Option Hash}
    (hresp : ∀ key, resp = (rh, some key) → K key) : HeldFrom K rh (t.answer c daa resp).book := by
  obtain ⟨h', none | r⟩ := resp
  · exact h
  · intro e he key hkey
    simp only [AnswerTrace.answer] at he
    rw [(awardFirst_touches h' c _ _).book] at he
    simp only [respond] at he
    split at he
    · simp only [parkEarly, get?_insert] at he
      split at he
      · next heq =>
        subst heq
        rw [← Option.some.inj he, mem_pushNew] at hkey
        rcases hkey with hkey | rfl
        · cases hget : t.book.earlyResponses.get? rh with
          | none => rw [hget] at hkey; cases hkey
          | some held =>
            rw [hget] at hkey
            exact h held hget key hkey
        · exact hresp key rfl
      · exact h e he key hkey
    · split at he <;> exact h e he key hkey

/-- **One block** holds the keys held before and those of its own responses. -/
theorem replay {i : FoldInput} (h : HeldFrom K rh b) (cohort : ℕ → List (Hash × Hash)) :
    HeldFrom (fun key => K key ∨ (rh, some key) ∈ i.responses) rh
      (b.replay c i cohort).book := by
  have hadmitted : HeldFrom (fun key => K key ∨ (rh, some key) ∈ i.responses) rh
      (b.admitAll c i) := by
    refine foldlRecOn _ _ (motive := HeldFrom _ rh) ?_ fun b' hb' rq _ =>
      hb'.admitRequest i.requestRewards rq
    exact fun e he key hkey => Or.inl (h.expire c i.daa e he key hkey)
  have hanswered : HeldFrom (fun key => K key ∨ (rh, some key) ∈ i.responses) rh
      (i.responses.foldl (AnswerTrace.answer c i.daa) { book := b.admitAll c i }).book := by
    refine foldlRecOn _ _ (motive := fun t : AnswerTrace => HeldFrom _ rh t.book) hadmitted
      fun t ht resp hresp => ht.answer fun key heq => Or.inr (heq ▸ hresp)
  have hevicted : HeldFrom (fun key => K key ∨ (rh, some key) ∈ i.responses) rh
      (b.answerAll c i).book :=
    fun e he => hanswered e (of_get?_evictLoop he)
  refine foldlRecOn _ _ (motive := fun t : BookTrace => HeldFrom _ rh t.book) hevicted ?_
  intro t ht rq _ e he
  rw [BookTrace.visit, (closeOrArm_touches cohort rq c i.daa t.book).book] at he
  exact ht e he

end HeldFrom

end KeryxNode
