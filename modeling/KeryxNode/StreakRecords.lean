import KeryxNode.ServiceStores
import KeryxNode.VaultUndo

/-!
# What a Block Does to Strike Records

Inside one block an identity can be reset for a response, struck at a closing audit and reset
again at an arming one, in this order. This module says what is left of it: at most one miss
per identity, at most one reset per identity the block does not strike, the strike record of
every identity after the block, and the sightings.
-/

namespace KeryxNode

open List BondBook Option FlushState ServiceMiss

namespace BondBook

variable {s : BondBook × List (Hash × ℕ)} {daa : ℕ} {before : BondBook} (b : BondBook)

/-! ### One strike, one reset -/

theorem strikeState_insert (id : Hash) (e : StrikeEntry) (id' : Hash) :
    { b with strikes := b.strikes.insert id e }.strikeState id'
      = if id' = id then some e else b.strikeState id' := by
  simp only [strikeState, OrdMap.get?_insert]
  split <;> simp

/-- A burn touches the vault alone. -/
theorem burn_bond (miner : Hash) (penalty : ServicePenalty) :
    (b.burn miner penalty).1 = { b with vault := (b.burn miner penalty).1.vault } := by
  unfold burn
  split <;> rfl

/-- A strike either falls inside the interval of the last one and does nothing, or reports one
miss and leaves its record. Sightings are not touched. -/
theorem strike_cases (daa : ℕ) (v2 : Bool) (est : Hash → Bool) (rh : Hash)
    (s : BondBook × List ServiceMiss) (miner : Hash) :
    (s.1.rateLimited daa miner = true ∧ strike daa v2 est rh s miner = s) ∨
      (s.1.rateLimited daa miner = false ∧ ∃ m : ServiceMiss, m.miner = miner ∧
        m.consecutiveMisses = s.1.consecutiveMisses miner + 1 ∧
        m.penalty = strikePenaltyAt m.consecutiveMisses (est miner) v2 ∧
        (strike daa v2 est rh s miner).2 = s.2 ++ [m] ∧
        ∀ id, (strike daa v2 est rh s miner).1.strikeState id
          = if id = miner then some (missRecord daa m) else s.1.strikeState id) := by
  cases hr : s.1.rateLimited daa miner with
  | true => exact .inl ⟨rfl, by simp only [strike, hr, if_true]⟩
  | false =>
    refine .inr ⟨rfl, ?_⟩
    simp only [strike, hr, Bool.false_eq_true, if_false]
    set count := s.1.consecutiveMisses miner + 1
    set penalty := strikePenaltyAt count (est miner) v2
    set struck : BondBook := { s.1 with strikes := s.1.strikes.insert miner ⟨count, daa⟩ }
    refine ⟨_, rfl, rfl, rfl, rfl, fun id => ?_⟩
    have hstate : (struck.burn miner penalty).1.strikeState id
        = if id = miner then some ⟨count, daa⟩ else s.1.strikeState id := by
      rw [burn_bond]
      exact strikeState_insert s.1 miner ⟨count, daa⟩ id
    simp only [missRecord]
    split
    · rw [strikeState_insert, hstate]
      split <;> rfl
    · exact hstate

/-- A reset either finds no streak and does nothing, or reports itself and restarts the
streak. -/
theorem resetServed_cases (v2 : Bool) (s : BondBook × List (Hash × ℕ)) (identity : Hash) :
    resetServed v2 s identity = s ∨
      ∃ e, s.1.strikeState identity = some e ∧ 0 < e.count ∧
        (resetServed v2 s identity).2 = s.2 ++ [(identity, if v2 then e.lastDaa else 0)] ∧
        ∀ id, (resetServed v2 s identity).1.strikeState id
          = if id = identity then some ⟨0, if v2 then e.lastDaa else 0⟩
            else s.1.strikeState id := by
  cases hs : s.1.strikeState identity with
  | none =>
    left
    simp only [resetServed, hs, any_none, Bool.false_eq_true, if_false]
  | some e =>
    by_cases hc : 0 < e.count
    · right
      refine ⟨e, rfl, hc, ?_⟩
      simp only [resetServed, resetPreservedLastDaa, hs, any_some, hc, decide_true,
        if_true, map_some, getD_some, true_and]
      exact strikeState_insert s.1 identity _
    · left
      simp only [resetServed, hs, any_some, hc, decide_false, Bool.false_eq_true, if_false]

/-! ### The strikes of a block -/

/-- The strikes of a block so far: one miss per identity, each with its record, all other
records as before. -/
structure Struck (daa : ℕ) (before : BondBook) (s : BondBook × List ServiceMiss) : Prop where
  nodup : (s.2.map miner).Nodup
  counted : ∀ m ∈ s.2, 0 < m.consecutiveMisses
  record : ∀ m ∈ s.2, s.1.strikeState m.miner = some (missRecord daa m)
  frame : ∀ id, id ∉ s.2.map miner → s.1.strikeState id = before.strikeState id

@[simp] theorem lastDaa_missRecord (daa : ℕ) (m : ServiceMiss) :
    (missRecord daa m).lastDaa = daa := by
  unfold missRecord
  split <;> rfl

theorem Struck.strike {s : BondBook × List ServiceMiss} (h : Struck daa before s) (hdaa : 0 < daa)
    (v2 : Bool) (est : Hash → Bool) (rh miner : Hash) :
    Struck daa before (strike daa v2 est rh s miner) := by
  rcases strike_cases daa v2 est rh s miner with
    ⟨-, heq⟩ | ⟨hlimit, m, hm, hcount, -, hmisses, hstate⟩
  · rw [heq]
    exact h
  -- An identity struck in this block is rate limited for the rest of it.
  have hnew : miner ∉ s.2.map ServiceMiss.miner := by
    intro hmem
    obtain ⟨m', hm', rfl⟩ := mem_map.mp hmem
    have : s.1.rateLimited daa m'.miner = true := by
      rw [rateLimited, h.record m' hm', any_some, lastDaa_missRecord]
      exact decide_eq_true ⟨hdaa, Nat.lt_add_of_pos_right (by decide)⟩
    rw [hlimit] at this
    cases this
  constructor
  · rw [hmisses, map_append]
    refine h.nodup.append (nodup_singleton _) ?_
    intro id hid hid'
    rw [map_singleton, mem_singleton, hm] at hid'
    exact hnew (hid' ▸ hid)
  · rw [hmisses]
    exact forall_mem_append.mpr ⟨h.counted, forall_mem_singleton.mpr (hcount ▸ Nat.succ_pos _)⟩
  · rw [hmisses]
    refine forall_mem_append.mpr ⟨fun m' hm' => ?_, forall_mem_singleton.mpr ?_⟩
    · rw [hstate, if_neg fun heq : m'.miner = miner => hnew (heq ▸ mem_map_of_mem hm')]
      exact h.record m' hm'
    · rw [hstate, if_pos hm]
  · intro id hid
    rw [hmisses, map_append, mem_append, not_or, map_singleton, mem_singleton, hm] at hid
    rw [hstate, if_neg hid.2]
    exact h.frame id hid.1

theorem Struck.strikeAll (hdaa : 0 < daa) (v2 : Bool) (est : Hash → Bool)
    (closings : List (Hash × Hash)) :
    Struck daa before (strikeAll daa v2 est closings (before, [])) := by
  unfold BondBook.strikeAll
  refine foldlRecOn _ _ (motive := fun s : BondBook × List ServiceMiss =>
    Struck daa before s) ⟨nodup_nil, ?_, ?_, fun _ _ => rfl⟩ ?_
  · exact fun _ hm => (by cases hm)
  · exact fun _ hm => (by cases hm)
  · exact fun s hs p _ => hs.strike hdaa v2 est p.1 p.2

/-! ### The resets of a block -/

/-- The resets of a block so far, of identities the block does not strike: one per identity,
carrying an older score, each with its record, all other records as before. -/
structure Reset (daa : ℕ) (missed : List Hash) (before : BondBook)
    (s : BondBook × List (Hash × ℕ)) : Prop where
  nodup : ((s.2.filter fun r => decide (r.1 ∉ missed)).map Prod.fst).Nodup
  record : ∀ r ∈ s.2, r.1 ∉ missed → s.1.strikeState r.1 = some ⟨0, r.2⟩ ∧ r.2 < daa
  frame : ∀ id, id ∉ missed → id ∉ s.2.map Prod.fst → s.1.strikeState id = before.strikeState id

theorem Reset.resetServed {missed : List Hash} (h : Reset daa missed before s)
    (hdaa : 0 < daa) (hold : ∀ id e, before.strikeState id = some e → e.lastDaa < daa) (v2 : Bool)
    (identity : Hash) : Reset daa missed before (resetServed v2 s identity) := by
  rcases resetServed_cases v2 s identity with heq | ⟨e, he, hcount, hresets, hstate⟩
  · rw [heq]
    exact h
  by_cases hmissed : identity ∈ missed
  · -- The reset of a struck identity is not counted.
    constructor
    · rw [hresets, filter_append, filter_cons_of_neg (by simpa using hmissed),
        filter_nil, append_nil]
      exact h.nodup
    · rw [hresets]
      refine forall_mem_append.mpr ⟨fun r hr hr' => ?_, forall_mem_singleton.mpr (absurd hmissed)⟩
      rw [hstate, if_neg fun heq : r.1 = identity => hr' (heq ▸ hmissed)]
      exact h.record r hr hr'
    · intro id hid hid'
      rw [hresets, map_append, mem_append, not_or] at hid'
      rw [hstate, if_neg fun heq : id = identity => hid (heq ▸ hmissed)]
      exact h.frame id hid hid'.1
  -- An identity already reset has no streak left.
  have hnew : identity ∉ s.2.map Prod.fst := by
    intro hmem
    obtain ⟨r, hr, rfl⟩ := mem_map.mp hmem
    have := (h.record r hr hmissed).1
    rw [he] at this
    exact hcount.ne' (congrArg StrikeEntry.count (some.inj this))
  have hlast : (if v2 then e.lastDaa else 0) < daa := by
    rw [h.frame identity hmissed hnew] at he
    split
    · exact hold identity e he
    · exact hdaa
  constructor
  · rw [hresets, filter_append, filter_cons_of_pos (by simpa using hmissed),
      filter_nil, map_append]
    refine h.nodup.append (nodup_singleton _) ?_
    intro id hid hid'
    rw [map_singleton, mem_singleton] at hid'
    subst hid'
    exact hnew ((filter_sublist.map _).subset hid)
  · rw [hresets]
    refine forall_mem_append.mpr ⟨fun r hr hr' => ?_, forall_mem_singleton.mpr fun _ => ?_⟩
    · rw [hstate, if_neg fun heq : r.1 = identity => hnew (heq ▸ mem_map_of_mem hr)]
      exact h.record r hr hr'
    · rw [hstate, if_pos rfl]
      exact ⟨rfl, hlast⟩
  · intro id hid hid'
    rw [hresets, map_append, mem_append, not_or, map_singleton, mem_singleton] at hid'
    rw [hstate, if_neg hid'.2]
    exact h.frame id hid hid'.1

theorem Reset.resetAll {missed : List Hash} (h : Reset daa missed before s) (hdaa : 0 < daa)
    (hold : ∀ id e, before.strikeState id = some e → e.lastDaa < daa) (v2 : Bool)
    (served : List Hash) : Reset daa missed before (resetAll v2 served s) := by
  unfold BondBook.resetAll
  refine foldlRecOn _ _ (motive := fun s : BondBook × List (Hash × ℕ) =>
    Reset daa missed before s) h ?_
  exact fun s hs id _ => hs.resetServed hdaa hold v2 id

/-- Resets of others leave a record alone. -/
theorem strikeState_resetAll_of_not_mem (v2 : Bool) {served : List Hash} {id : Hash}
    (hid : id ∉ served) (s : BondBook × List (Hash × ℕ)) :
    (resetAll v2 served s).1.strikeState id = s.1.strikeState id := by
  refine foldlRecOn _ _ (motive := fun s' : BondBook × List (Hash × ℕ) =>
    s'.1.strikeState id = s.1.strikeState id) rfl ?_
  intro s' hs' k hk
  rcases resetServed_cases v2 s' k with heq | ⟨e, -, -, -, hstate⟩
  · rw [heq]
    exact hs'
  · rw [hstate, if_neg fun heq : id = k => hid (heq ▸ hk)]
    exact hs'

/-- No record carries a score past the bound. -/
def RecordsUpTo (daa : ℕ) (b : BondBook) : Prop :=
  ∀ id e, b.strikeState id = some e → e.lastDaa ≤ daa

theorem RecordsUpTo.resetAll (h : RecordsUpTo daa s.1) (v2 : Bool) (served : List Hash) :
    RecordsUpTo daa (resetAll v2 served s).1 := by
  unfold BondBook.resetAll
  refine foldlRecOn _ _ (motive := fun s : BondBook × List (Hash × ℕ) =>
    RecordsUpTo daa s.1) h ?_
  intro s hs k _
  rcases resetServed_cases v2 s k with heq | ⟨e, he, -, -, hstate⟩
  · rw [heq]
    exact hs
  · intro id e' he'
    rw [hstate] at he'
    split at he'
    · rw [← some.inj he']
      have := hs k e he
      split
      · exact this
      · exact Nat.zero_le _
    · exact hs id e' he'

/-! ### The settlement of a block -/

/-- What the settlement of a trace at score `daa` leaves of a bond book. -/
structure Settled (daa : ℕ) (before : BondBook) (t : BookTrace) (after : BondBook)
    (misses : List ServiceMiss) (resets : List (Hash × ℕ)) : Prop where
  missed_nodup : (misses.map miner).Nodup
  counted : ∀ m ∈ misses, 0 < m.consecutiveMisses
  reset : Reset daa (misses.map miner) before (after, resets)
  missRecord : ∀ m ∈ misses, m.miner ∉ t.armCredits →
    after.strikeState m.miner = some (missRecord daa m)
  upTo : RecordsUpTo daa after

/-- **The settlement of a block** whose records are all older. -/
theorem Settled.of_settle {b : BondBook} (hdaa : 0 < daa)
    (hold : ∀ id e, b.strikeState id = some e → e.lastDaa < daa) (v2 : Bool) (est : Hash → Bool)
    (t : BookTrace) :
    Settled daa b t (b.settle daa v2 est t).1 (b.settle daa v2 est t).2.1
      (b.settle daa v2 est t).2.2 := by
  simp only [settle]
  set served := resetAll v2 t.credits (b, [])
  set struck := strikeAll daa v2 est t.closings (served.1, [])
  have hnone : Reset daa (struck.2.map miner) b (b, []) :=
    ⟨nodup_nil, fun _ hr => (by cases hr), fun _ _ _ => rfl⟩
  have hserved : Reset daa (struck.2.map miner) b served :=
    hnone.resetAll hdaa hold v2 t.credits
  have hupServed : RecordsUpTo daa served.1 :=
    .resetAll (s := (b, [])) (fun id e he => (hold id e he).le) v2 t.credits
  have hstruck : Struck daa served.1 struck := Struck.strikeAll hdaa v2 est t.closings
  have hupStruck : RecordsUpTo daa struck.1 := by
    intro id e he
    by_cases hid : id ∈ struck.2.map miner
    · obtain ⟨m, hm, rfl⟩ := mem_map.mp hid
      rw [hstruck.record m hm] at he
      rw [← some.inj he, lastDaa_missRecord]
    · rw [hstruck.frame id hid] at he
      exact hupServed id e he
  have hmid : Reset daa (struck.2.map miner) b (struck.1, served.2) := by
    refine ⟨hserved.nodup, fun r hr hr' => ?_, fun id hid hid' => ?_⟩
    · rw [hstruck.frame r.1 hr']
      exact hserved.record r hr hr'
    · rw [hstruck.frame id hid]
      exact hserved.frame id hid hid'
  refine ⟨hstruck.nodup, hstruck.counted, hmid.resetAll hdaa hold v2 t.armCredits, ?_, ?_⟩
  · intro m hm harm
    rw [strikeState_resetAll_of_not_mem v2 harm]
    exact hstruck.record m hm
  · exact .resetAll (s := (struck.1, served.2)) hupStruck v2 t.armCredits

/-! ### Sightings -/

/-- Settling touches no sighting. -/
theorem sighted_settle (daa : ℕ) (v2 : Bool) (est : Hash → Bool) (t : BookTrace) (id : Hash) :
    (b.settle daa v2 est t).1.sighted id = b.sighted id := by
  have hreset : ∀ (served : List Hash) (s : BondBook × List (Hash × ℕ)),
      (resetAll v2 served s).1.sighted id = s.1.sighted id := by
    intro served s
    refine foldlRecOn _ _ (motive := fun s' : BondBook × List (Hash × ℕ) =>
      s'.1.sighted id = s.1.sighted id) rfl fun s' hs' k _ => ?_
    unfold resetServed
    split
    · exact hs'
    · exact hs'
  have hstrike : ∀ s : BondBook × List ServiceMiss,
      (strikeAll daa v2 est t.closings s).1.sighted id = s.1.sighted id := by
    intro s
    refine foldlRecOn _ _ (motive := fun s' : BondBook × List ServiceMiss =>
      s'.1.sighted id = s.1.sighted id) rfl fun s' hs' p _ => ?_
    simp only [strike]
    split
    · exact hs'
    · rw [burn_bond]
      split <;> exact hs'
  simp only [settle, hreset, hstrike]

/-- **The sightings of a block** are of identities not sighted before, each once; after the
block exactly they are sighted in addition. Opening a block touches no strike record. -/
theorem openBlock_sightings (burnable : ℕ) (i : FoldInput) :
    let r := b.openBlock burnable i none
    r.2.Nodup ∧ (∀ id ∈ r.2, b.sighted id = none) ∧
      (∀ id, r.1.1.sighted id = none ↔ b.sighted id = none ∧ id ∉ r.2) ∧
      ∀ id, r.1.1.strikeState id = b.strikeState id := by
  have hfold : ∀ s : BondBook × List Hash, s = i.escrows.foldl (admitEscrow none) (b, []) →
      s.2.Nodup ∧ (∀ id ∈ s.2, b.sighted id = none) ∧
        (∀ id, s.1.sighted id = none ↔ b.sighted id = none ∧ id ∉ s.2) ∧
        ∀ id, s.1.strikeState id = b.strikeState id := by
    rintro s rfl
    refine foldlRecOn _ _ (motive := fun s : BondBook × List Hash =>
      s.2.Nodup ∧ (∀ id ∈ s.2, b.sighted id = none) ∧
        (∀ id, s.1.sighted id = none ↔ b.sighted id = none ∧ id ∉ s.2) ∧
        ∀ id, s.1.strikeState id = b.strikeState id)
      ⟨nodup_nil, fun _ hid => (by cases hid), fun _ => by simp, fun _ => rfl⟩ ?_
    rintro s ⟨hnodup, hnew, hsighted, hstate⟩ e -
    simp only [admitEscrow, isNone_none, true_and, any_none, Bool.false_eq_true,
      if_false]
    by_cases hseen : ¬ s.1.firstSeen.contains e.1 = true ∧ ¬ s.1.firstSeenBase.contains e.1 = true
    · have hnone : s.1.sighted e.1 = none := by
        simp only [Bool.not_eq_true, OrdMap.contains_eq_false] at hseen
        rw [sighted, hseen.1, hseen.2]
        rfl
      obtain ⟨hfresh, hnot⟩ := (hsighted e.1).mp hnone
      simp only [if_pos hseen]
      refine ⟨?_, ?_, ?_, hstate⟩
      · refine hnodup.append (nodup_singleton _) fun id hid hid' => ?_
        rw [mem_singleton.mp hid'] at hid
        exact hnot hid
      · exact forall_mem_append.mpr ⟨hnew, forall_mem_singleton.mpr hfresh⟩
      · intro id
        rw [mem_append, not_or, ← and_assoc, ← hsighted id]
        simp only [sighted, OrdMap.get?_insert]
        split
        · next hid => simp [hid]
        · next hid => simp [hid]
    · simp only [if_neg hseen]
      exact ⟨hnodup, hnew, hsighted, hstate⟩
  exact hfold _ rfl

end BondBook

end KeryxNode
