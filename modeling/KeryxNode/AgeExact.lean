import Mathlib.Algebra.BigOperators.Group.List.Basic
import Mathlib.Algebra.Order.BigOperators.Group.List
import Mathlib.Algebra.Order.Group.Nat
import KeryxNode.AgeIndex

/-!
# Exactness of the Coin-Age Index

The buckets of an address are meant to be the direct classification of its coins at the last
committed score. The invariant that carries this through commits ties three things together:
the buckets are the classification of the set at the watermark, every queue entry is of a coin
of the set, and every coin that matures past the pruning horizon is queued.

A sweep moves the split across the coins that mature between the two scores. By the invariant
these are exactly the queue entries of that range (`dueRange_perm`), so what is promoted or
demoted is what the classification changes by (`classified_crossing`). A diff then changes the
set and the classification by the same coins (`ageMass_writeTo`).

## Main results

* `age_index_exact`: after every commit the buckets are the classification, which is what a
  rebuild writes, and no update was clamped.
-/

namespace KeryxNode

open OrdMap List AgeBuckets AgeIndex UtxoCollection

variable {set : UtxoCollection} {diff : UtxoDiff}

/-! ### The direct classification -/

namespace UtxoCollection

variable (spk : ScriptPublicKey) (matureBound : ℕ) (set : UtxoCollection)

/-- The aggregates of an address by the definition of maturity. -/
def classified : AgeBuckets where
  bMat := set.total fun _ e =>
    if e.scriptPublicKey = spk ∧ e.effectiveDaa ≤ matureBound then e.amount else 0
  bImm := set.total fun _ e =>
    if e.scriptPublicKey = spk ∧ matureBound < e.effectiveDaa then e.amount else 0
  aImm := set.total fun _ e =>
    if e.scriptPublicKey = spk ∧ matureBound < e.effectiveDaa then e.amount * e.effectiveDaa else 0

/-- The amounts of an address. -/
def spkAmount : ℕ :=
  set.total fun _ e => if e.scriptPublicKey = spk then e.amount else 0

/-- The anchor mass of an address. -/
def spkAnchorMass : ℕ :=
  set.total fun _ e => if e.scriptPublicKey = spk then e.amount * e.effectiveDaa else 0

/-- The sums of every address fit the integers they are kept in. -/
def Fits : Prop :=
  ∀ spk, spkAmount spk set < 2 ^ 64 ∧ spkAnchorMass spk set < 2 ^ 127

end UtxoCollection

/-- Aggregates in the range of the classification of a set whose sums fit. -/
def AgeBuckets.InRange (b : AgeBuckets) : Prop :=
  b.bMat < 2 ^ 64 ∧ b.bImm < 2 ^ 64 ∧ b.aImm < 2 ^ 127

/-- The aggregates as a signed change. -/
def AgeBuckets.toDelta (b : AgeBuckets) : AgeDelta :=
  (b.bMat, b.bImm, b.aImm)

theorem AgeBuckets.toDelta_injective : Function.Injective toDelta := by
  rintro ⟨m, i, a⟩ ⟨m', i', a'⟩ h
  simpa only [toDelta, Prod.mk.injEq, Int.natCast_inj, mk.injEq] using h

namespace UtxoCollection

variable {spk : ScriptPublicKey} {set : UtxoCollection}

/-- The aggregates of an address among listed coins. -/
def coinMass (spk : ScriptPublicKey) (matureBound : ℕ)
    (l : List (TransactionOutpoint × UtxoEntry)) : AgeBuckets where
  bMat := (l.map fun c =>
    if c.2.scriptPublicKey = spk ∧ c.2.effectiveDaa ≤ matureBound then c.2.amount else 0).sum
  bImm := (l.map fun c =>
    if c.2.scriptPublicKey = spk ∧ matureBound < c.2.effectiveDaa then c.2.amount else 0).sum
  aImm := (l.map fun c => if c.2.scriptPublicKey = spk ∧ matureBound < c.2.effectiveDaa then
    c.2.amount * c.2.effectiveDaa else 0).sum

/-- The signed mass of a collection is its classification. -/
theorem ageMass_eq (matureBound : ℕ) :
    ageMass spk matureBound set = (classified spk matureBound set).toDelta := by
  have hlist : ∀ l : List (TransactionOutpoint × UtxoEntry),
      (l.map fun c =>
        if c.2.scriptPublicKey = spk then c.2.ageDelta matureBound else (0 : AgeDelta)).sum
      = (coinMass spk matureBound l).toDelta := by
    intro l
    induction l with
    | nil => rfl
    | cons c l ih =>
      rw [map_cons, sum_cons, ih]
      by_cases hs : c.2.scriptPublicKey = spk
      · rcases le_or_gt c.2.effectiveDaa matureBound with hm | hm
        · simp [coinMass, hs, hm, UtxoEntry.ageDelta, toDelta]
        · simp [coinMass, hs, hm.not_ge, UtxoEntry.ageDelta, toDelta]
      · simp [coinMass, hs]
  exact hlist set.entries

/-- The classification of a set whose sums fit has its aggregates in range. -/
theorem Fits.classified (h : Fits set) (spk : ScriptPublicKey) (matureBound : ℕ) :
    (classified spk matureBound set).InRange := by
  obtain ⟨hamount, hanchor⟩ := h spk
  have hle : ∀ (p : UtxoEntry → Prop) [DecidablePred p] (f : UtxoEntry → ℕ),
      (set.total fun _ e => if e.scriptPublicKey = spk ∧ p e then f e else 0)
        ≤ set.total fun _ e => if e.scriptPublicKey = spk then f e else 0 := by
    intro p _ f
    refine sum_le_sum fun c _ => ?_
    by_cases hs : c.2.scriptPublicKey = spk <;> by_cases hp : p c.2 <;> simp [hs, hp]
  exact ⟨(hle (fun e => e.effectiveDaa ≤ matureBound) _).trans_lt hamount,
    (hle (fun e => matureBound < e.effectiveDaa) _).trans_lt hamount,
    (hle (fun e => matureBound < e.effectiveDaa) _).trans_lt hanchor⟩

end UtxoCollection

/-! ### Saturating sums -/

/-- Queue entries of an address: amount and anchor mass without bounds. -/
def dueMass (spk : ScriptPublicKey) (due : List (MaturationKey × MaturationEntry)) : ℕ × ℕ :=
  ((due.map fun d => if d.2.scriptPublicKey = spk then d.2.amount else 0).sum,
    (due.map fun d => if d.2.scriptPublicKey = spk then d.2.amount * d.2.anchor else 0).sum)

/-- The saturating fold is the sum cut off at the bounds. -/
theorem foldDue_eq (spk : ScriptPublicKey) (due : List (MaturationKey × MaturationEntry)) :
    foldDue spk due = (min (dueMass spk due).1 u64Max, min (dueMass spk due).2 u128Max) := by
  have hfold : ∀ (l : List (MaturationKey × MaturationEntry)) (x y : ℕ),
      l.foldl (fun m d =>
        if d.2.scriptPublicKey = spk then
          (min (m.1 + d.2.amount) u64Max,
            min (m.2 + min (d.2.amount * d.2.anchor) u128Max) u128Max)
        else m) (min x u64Max, min y u128Max)
      = (min (x + (dueMass spk l).1) u64Max, min (y + (dueMass spk l).2) u128Max) := by
    intro l
    induction l with
    | nil => exact fun x y => rfl
    | cons d l ih =>
      intro x y
      rw [foldl_cons]
      by_cases hd : d.2.scriptPublicKey = spk
      · have hstep : (min (min x u64Max + d.2.amount) u64Max,
            min (min y u128Max + min (d.2.amount * d.2.anchor) u128Max) u128Max)
            = (min (x + d.2.amount) u64Max, min (y + d.2.amount * d.2.anchor) u128Max) :=
          Prod.ext (by dsimp only; omega) (by dsimp only; omega)
        rw [if_pos hd]
        rw [hstep, ih]
        simp only [dueMass, map_cons, sum_cons, if_pos hd, add_assoc]
      · rw [if_neg hd, ih]
        simp only [dueMass, map_cons, sum_cons, if_neg hd, zero_add]
  have hzero := hfold due 0 0
  simpa [foldDue] using hzero

/-- The rebuild's fold over the coins of an address. -/
theorem foldl_addCoin_eq (spk : ScriptPublicKey) (matureBound : ℕ)
    (l : List (TransactionOutpoint × UtxoEntry)) (b : AgeBuckets) :
    (l.filter fun c => decide (c.2.scriptPublicKey = spk)).foldl
      (fun (b : AgeBuckets) c => b.addCoin matureBound c.2)
      ⟨min b.bMat u64Max, min b.bImm u64Max, min b.aImm u128Max⟩
    = ⟨min (b.bMat + (coinMass spk matureBound l).bMat) u64Max,
      min (b.bImm + (coinMass spk matureBound l).bImm) u64Max,
      min (b.aImm + (coinMass spk matureBound l).aImm) u128Max⟩ := by
  induction l generalizing b with
  | nil => rfl
  | cons c l ih =>
    by_cases hs : c.2.scriptPublicKey = spk
    · rw [filter_cons_of_pos (by simpa using hs), foldl_cons]
      rcases le_or_gt c.2.effectiveDaa matureBound with hm | hm
      · have hstep : AgeBuckets.addCoin matureBound
            ⟨min b.bMat u64Max, min b.bImm u64Max, min b.aImm u128Max⟩ c.2
            = ⟨min (b.bMat + c.2.amount) u64Max, min b.bImm u64Max, min b.aImm u128Max⟩ := by
          rw [AgeBuckets.addCoin, if_pos hm]
          simp only [AgeBuckets.mk.injEq, and_true]
          omega
        rw [hstep, ih ⟨b.bMat + c.2.amount, b.bImm, b.aImm⟩]
        simp [coinMass, hs, hm, hm.not_gt, add_assoc]
      · have hstep : AgeBuckets.addCoin matureBound
            ⟨min b.bMat u64Max, min b.bImm u64Max, min b.aImm u128Max⟩ c.2
            = ⟨min b.bMat u64Max, min (b.bImm + c.2.amount) u64Max,
                min (b.aImm + c.2.amount * c.2.effectiveDaa) u128Max⟩ := by
          rw [AgeBuckets.addCoin, if_neg hm.not_ge]
          simp only [AgeBuckets.mk.injEq, true_and]
          omega
        rw [hstep, ih ⟨b.bMat, b.bImm + c.2.amount, b.aImm + c.2.amount * c.2.effectiveDaa⟩]
        simp [coinMass, hs, hm, hm.not_ge, add_assoc]
    · rw [filter_cons_of_neg (by simpa using hs), ih]
      simp [coinMass, hs]

/-! ### The queue and the set -/

/-- Every queue entry is of a coin of the set, as it stands. -/
def Backed (P : CoinAgeParams) (set : UtxoCollection) (q : MaturationQueue) : Prop :=
  ∀ k v, q.get? k = some v →
    ∃ e, set.get? k.outpoint = some e ∧ P.queueKey k.outpoint e = k ∧ e.queued = v

namespace Backed

variable {P : CoinAgeParams} {set : UtxoCollection} {ix : AgeIndex}

/-- A sweep only deletes entries. -/
theorem sweep (h : Backed P set ix.queue) (score : ℕ) (diff : UtxoDiff) :
    Backed P set (ix.sweepMaturationQueue P score diff).1.queue := by
  rw [sweepMaturationQueue]
  split
  · split <;> exact h
  · exact fun k v hk => h k v (of_get?_eraseAll hk)

/-- A diff that applies takes the entries of the coins it removes with it. -/
theorem applyAgeDiff (h : Backed P set ix.queue) (hd : diff.Applies set.get?)
    (score : ℕ) : Backed P (diff.writeTo set) (ix.applyAgeDiff P diff score).queue := by
  intro k v hk
  rw [AgeIndex.applyAgeDiff] at hk
  rw [P.get?_enqueue, Option.or_eq_some_iff] at hk
  rw [UtxoDiff.get?_writeTo, UtxoDiff.composed]
  rcases hk with hk | ⟨-, hk⟩
  · obtain ⟨e, he, rfl⟩ := Option.map_eq_some_iff.mp hk
    obtain ⟨he, hkey⟩ := Option.filter_eq_some_iff.mp he
    exact ⟨e, by rw [he], of_decide_eq_true hkey, rfl⟩
  · obtain ⟨e, he, hkey, rfl⟩ := h k v (of_get?_eraseAll hk)
    -- The coin is still there: were it removed, its entry would have been deleted.
    have hremove : diff.remove.get? k.outpoint = none := by
      cases hr : diff.remove.get? k.outpoint with
      | none => rfl
      | some x =>
        obtain rfl : e = x := by
          rw [(hd k.outpoint).removed x hr] at he
          exact (Option.some.inj he).symm
        rw [← hkey, P.get?_dequeue_self _ hr] at hk
        cases hk
    refine ⟨e, ?_, hkey, rfl⟩
    rw [(hd k.outpoint).add_eq_none he hremove, contains_eq_false.mpr hremove]
    exact he

end Backed

/-- A rebuild queues coins of the set. -/
theorem backed_rebuild (P : CoinAgeParams) (ix : AgeIndex) (set : UtxoCollection) (score : ℕ) :
    Backed P set (ix.rebuildAgeBucketsIndex P set score).queue := by
  intro k v hk
  rw [rebuildAgeBucketsIndex] at hk
  rw [P.get?_enqueue, get?_empty, Option.or_none] at hk
  obtain ⟨e, he, rfl⟩ := Option.map_eq_some_iff.mp hk
  obtain ⟨he, hkey⟩ := Option.filter_eq_some_iff.mp he
  exact ⟨e, (of_get?_filter he).1, of_decide_eq_true hkey, rfl⟩

/-! ### Coins that cross the boundary -/

/-- Amount and anchor mass of the coins of an address that mature in `(a, b]`. -/
def CoinAgeParams.crossing (P : CoinAgeParams) (spk : ScriptPublicKey) (a b : ℕ)
    (set : UtxoCollection) : ℕ × ℕ :=
  (set.total fun _ e => if e.scriptPublicKey = spk ∧ a < e.effectiveDaa + P.coinAgeMaturityW ∧
      e.effectiveDaa + P.coinAgeMaturityW ≤ b then e.amount else 0,
    set.total fun _ e => if e.scriptPublicKey = spk ∧ a < e.effectiveDaa + P.coinAgeMaturityW ∧
      e.effectiveDaa + P.coinAgeMaturityW ≤ b then e.amount * e.effectiveDaa else 0)

section Crossing

variable {P : CoinAgeParams} {set : UtxoCollection} {q : MaturationQueue} {horizon a b : ℕ}

/-- **The queue lists the crossing coins**, above the pruning horizon. -/
theorem dueRange_perm (hbacked : Backed P set q) (hqueued : Queued P horizon set q)
    (ha : horizon ≤ a) :
    (q.dueRange a b).Perm ((set.entries.filter fun c =>
      decide (a < c.2.effectiveDaa + P.coinAgeMaturityW ∧
        c.2.effectiveDaa + P.coinAgeMaturityW ≤ b)).map fun c =>
          (P.queueKey c.1 c.2, c.2.queued)) := by
  refine (perm_ext_iff_of_nodup (MaturationQueue.nodup_dueRange q a b) ?_).mpr ?_
  · refine List.Nodup.of_map (fun d => d.1.outpoint) ?_
    rw [map_map]
    exact (set.nodup_keys.sublist (filter_sublist.map Prod.fst))
  · rintro ⟨k, v⟩
    rw [MaturationQueue.mem_dueRange, mem_map]
    constructor
    · rintro ⟨hk, hlo, hhi⟩
      obtain ⟨e, he, hkey, rfl⟩ := hbacked k v hk
      refine ⟨(k.outpoint, e), mem_filter.mpr ⟨get?_eq_some_iff.mp he, ?_⟩,
        Prod.ext hkey rfl⟩
      rw [← hkey] at hlo hhi
      exact decide_eq_true ⟨hlo, hhi⟩
    · rintro ⟨c, hc, heq⟩
      obtain ⟨hmem, hrange⟩ := mem_filter.mp hc
      obtain ⟨hlo, hhi⟩ := of_decide_eq_true hrange
      obtain ⟨rfl, rfl⟩ := Prod.mk.inj heq
      exact ⟨hqueued c.1 c.2 (get?_eq_some_iff.mpr hmem) (ha.trans_lt hlo), hlo, hhi⟩

/-- A sum over a filtered list. -/
theorem sum_map_filter {α : Type} (p : α → Prop) [DecidablePred p] (f : α → ℕ) (l : List α) :
    ((l.filter fun x => decide (p x)).map f).sum = (l.map fun x => if p x then f x else 0).sum := by
  rw [sum_map_ite]
  simp

/-- What a range of the queue sums to. -/
theorem dueMass_dueRange (hbacked : Backed P set q) (hqueued : Queued P horizon set q)
    (ha : horizon ≤ a) (spk : ScriptPublicKey) :
    dueMass spk (q.dueRange a b) = P.crossing spk a b set := by
  have hperm := dueRange_perm (b := b) hbacked hqueued ha
  have hsum : ∀ f : MaturationEntry → ℕ,
      ((q.dueRange a b).map fun d => if d.2.scriptPublicKey = spk then f d.2 else 0).sum
        = set.total fun _ e => if e.scriptPublicKey = spk ∧
            a < e.effectiveDaa + P.coinAgeMaturityW ∧
            e.effectiveDaa + P.coinAgeMaturityW ≤ b then f e.queued else 0 := by
    intro f
    rw [(hperm.map _).sum_eq, map_map, sum_map_filter]
    refine congrArg sum (map_congr_left fun c _ => ?_)
    by_cases hs : c.2.scriptPublicKey = spk <;> simp [hs, UtxoEntry.queued]
  exact Prod.ext (hsum MaturationEntry.amount) (hsum fun m => m.amount * m.anchor)

/-- **The classification moves by the crossing coins.** -/
theorem classified_crossing (set : UtxoCollection) (spk : ScriptPublicKey)
    (ha : P.coinAgeMaturityW ≤ a) (hab : a ≤ b) :
    (set.classified spk (P.matureBound b)).bMat
        = (set.classified spk (P.matureBound a)).bMat + (P.crossing spk a b set).1 ∧
      (set.classified spk (P.matureBound b)).bImm + (P.crossing spk a b set).1
        = (set.classified spk (P.matureBound a)).bImm ∧
      (set.classified spk (P.matureBound b)).aImm + (P.crossing spk a b set).2
        = (set.classified spk (P.matureBound a)).aImm := by
  have hmature : ∀ {d : ℕ} (e : UtxoEntry), P.coinAgeMaturityW ≤ d →
      (e.effectiveDaa ≤ P.matureBound d ↔ e.effectiveDaa + P.coinAgeMaturityW ≤ d) := by
    intro d e hd
    rw [CoinAgeParams.matureBound]
    omega
  simp only [classified, CoinAgeParams.crossing, ← total_add]
  refine ⟨total_congr fun o e _ => ?_, total_congr fun o e _ => ?_,
    total_congr fun o e _ => ?_⟩
  all_goals
    simp only [← not_le, hmature e ha, hmature e (ha.trans hab)]
    by_cases hs : e.scriptPublicKey = spk
    · by_cases hea : e.effectiveDaa + P.coinAgeMaturityW ≤ a
      · simp [hea, hea.trans hab]
      · by_cases heb : e.effectiveDaa + P.coinAgeMaturityW ≤ b <;> simp [hea, heb]
    · simp [hs]

/-- The saturating fold over a range of the queue is exact where the sums of the set fit. -/
theorem foldDue_dueRange (hfits : set.Fits) (hbacked : Backed P set q)
    (hqueued : Queued P horizon set q) (ha : horizon ≤ a) (hw : P.coinAgeMaturityW ≤ a)
    (hab : a ≤ b) (spk : ScriptPublicKey) :
    foldDue spk (q.dueRange a b) = P.crossing spk a b set := by
  obtain ⟨-, himm, hmass⟩ := classified_crossing set spk hw hab
  obtain ⟨-, hlt, hlt'⟩ := hfits.classified spk (P.matureBound a)
  rw [foldDue_eq, dueMass_dueRange hbacked hqueued ha]
  refine Prod.ext (min_eq_left ?_) (min_eq_left ?_)
  · rw [u64Max]
    omega
  · rw [u128Max]
    omega

/-- A rise promotes the classification to the new score. -/
theorem promote_crossing (hfits : set.Fits) (hw : P.coinAgeMaturityW ≤ a) (hab : a ≤ b)
    (spk : ScriptPublicKey) :
    (set.classified spk (P.matureBound a)).promote (P.crossing spk a b set)
      = set.classified spk (P.matureBound b) := by
  obtain ⟨hmat, himm, hmass⟩ := classified_crossing set spk hw hab
  obtain ⟨hlt, -, -⟩ := hfits.classified spk (P.matureBound b)
  rw [promote, ← hmat, ← himm, ← hmass, Nat.add_sub_cancel, Nat.add_sub_cancel,
    min_eq_left (by rw [u64Max]; omega)]

/-- A drop demotes the classification to the new score. -/
theorem demote_crossing (hfits : set.Fits) (hw : P.coinAgeMaturityW ≤ a) (hab : a ≤ b)
    (spk : ScriptPublicKey) :
    (set.classified spk (P.matureBound b)).demote (P.crossing spk a b set)
      = set.classified spk (P.matureBound a) := by
  obtain ⟨hmat, himm, hmass⟩ := classified_crossing set spk hw hab
  obtain ⟨-, hlt, hlt'⟩ := hfits.classified spk (P.matureBound a)
  rw [demote, hmat, himm, hmass, Nat.add_sub_cancel,
    min_eq_left (by rw [u64Max]; omega), min_eq_left (by rw [u128Max]; omega)]

/-- The diffs apply one after the other. -/
def ApplyInTurn : UtxoCollection → List UtxoDiff → Prop
  | _, [] => True
  | set, d :: ds => d.Applies set.get? ∧ ApplyInTurn (d.writeTo set) ds

/-- A coin that is held and that no diff removes is added by none. -/
theorem add_eq_none_of_held {o : TransactionOutpoint} {e : UtxoEntry} (diffs : List UtxoDiff) :
    ∀ {set : UtxoCollection}, ApplyInTurn set diffs → set.get? o = some e →
      (∀ d ∈ diffs, d.remove.get? o = none) → ∀ d ∈ diffs, d.add.get? o = none := by
  induction diffs with
  | nil => exact fun _ _ _ d hd => (by cases hd)
  | cons d ds ih =>
    rintro set ⟨hd, hds⟩ he hremove
    have hkept := hremove d mem_cons_self
    have hadd := (hd o).add_eq_none he hkept
    have hheld : (d.writeTo set).get? o = some e := by
      rw [UtxoDiff.get?_writeTo, UtxoDiff.composed, hadd, contains_eq_false.mpr hkept]
      exact he
    exact forall_mem_cons.mpr
      ⟨hadd, ih hds hheld fun v hv => hremove v (mem_cons_of_mem _ hv)⟩

/-- No queued coin is a pure re-add of the diffs: it is in the set, so one that adds it follows one
that removes it. -/
theorem Backed.filter_readded (hbacked : Backed P set q) {diffs : List UtxoDiff}
    (hdiffs : ApplyInTurn set diffs) (a b : ℕ) :
    ((q.dueRange a b).filter fun d =>
      !((diffs.any fun v => v.add.contains d.1.outpoint) &&
        !diffs.any fun v => v.remove.contains d.1.outpoint))
      = q.dueRange a b := by
  refine filter_eq_self.mpr fun d hmem => ?_
  obtain ⟨e, he, -⟩ := hbacked d.1 d.2 (MaturationQueue.mem_dueRange.mp hmem).1
  cases hremove : diffs.any fun v => v.remove.contains d.1.outpoint with
  | true => simp
  | false =>
    have hnone := add_eq_none_of_held diffs hdiffs he fun v hv =>
      contains_eq_false.mp (Bool.eq_false_iff.mpr (any_eq_false.mp hremove v hv))
    have hadd : (diffs.any fun v => v.add.contains d.1.outpoint) = false :=
      any_eq_false.mpr fun v hv => by simp [contains_eq_false.mpr (hnone v hv)]
    simp [hadd]

end Crossing

/-! ### Diffs -/

/-- **The classification moves by the diff.** -/
theorem ageMass_writeTo (hd : diff.Applies set.get?) (spk : ScriptPublicKey) (matureBound : ℕ) :
    (diff.writeTo set).ageMass spk matureBound
      = set.ageMass spk matureBound + ageDeltaForSpk diff spk matureBound := by
  have hbalance : diff.remove.ageMass spk matureBound
      + (diff.writeTo set).ageMass spk matureBound
      = diff.add.ageMass spk matureBound + set.ageMass spk matureBound :=
    total_replace _ (fun o e he => (hd o).removed e he) fun o e he => (hd o).added e he
  rw [ageDeltaForSpk, ← add_sub_assoc, eq_sub_iff_add_eq, add_comm, hbalance, add_comm]

namespace AgeBuckets

theorem asI128_of_lt {n : ℕ} (h : n < 2 ^ 127) : asI128 n = n := by
  have hmod {m : ℕ} (h : n < m) : Int.bmod n (2 * m) = n :=
    Int.bmod_eq_of_le_mul_two (by omega) (by omega)
  have hmod := hmod h
  rwa [← Nat.pow_succ'] at hmod

/-- A change of aggregates in range is the integer sum. -/
theorem changed_eq {b b' : AgeBuckets} {d : AgeDelta} (hb : b.InRange)
    (h : b.toDelta + d = b'.toDelta) : b.changed d = b'.toDelta := by
  obtain ⟨hmat, himm, hmass⟩ := hb
  have hle : (2 : ℕ) ^ 64 ≤ 2 ^ 127 := by decide
  rw [← h, changed, asI128_of_lt (hmat.trans_le hle), asI128_of_lt (himm.trans_le hle),
    asI128_of_lt hmass]
  rfl

/-- A change that leads from aggregates in range to others stores those. -/
theorem change_eq {b b' : AgeBuckets} {d : AgeDelta} (hb : b.InRange) (hb' : b'.InRange)
    (h : b.toDelta + d = b'.toDelta) : b.change d = b' := by
  obtain ⟨hmat, himm, hmass⟩ := hb'
  rw [change, changed_eq hb h]
  simp only [toDelta, Int.toNat_natCast]
  rw [Nat.mod_eq_of_lt hmat, Nat.mod_eq_of_lt himm, Nat.mod_eq_of_lt (by omega)]

end AgeBuckets

/-- Folding a diff into the exact buckets of a set gives those of the set under the diff. -/
theorem change_classified (hd : diff.Applies set.get?) (hset : set.Fits)
    (hfits : (diff.writeTo set).Fits) (spk : ScriptPublicKey) (matureBound : ℕ) :
    (if ageDeltaForSpk diff spk matureBound = 0 then set.classified spk matureBound
      else (set.classified spk matureBound).change (ageDeltaForSpk diff spk matureBound))
        = (diff.writeTo set).classified spk matureBound ∧
      (set.classified spk matureBound).underflows (ageDeltaForSpk diff spk matureBound)
        = false := by
  have hmass := ageMass_writeTo hd spk matureBound
  rw [ageMass_eq, ageMass_eq] at hmass
  have hrange := hset.classified spk matureBound
  constructor
  · split
    · next hzero =>
      rw [hzero] at hmass
      exact (toDelta_injective hmass).symm
    · exact change_eq hrange (hfits.classified spk matureBound) hmass.symm
  · rw [underflows, changed_eq hrange hmass.symm]
    simp only [toDelta]
    refine decide_eq_false ?_
    omega

/-! ### The invariant -/

/-- A rebuild writes the classification. -/
theorem buckets_rebuild (P : CoinAgeParams) (ix : AgeIndex) (hfits : set.Fits) (score : ℕ)
    (spk : ScriptPublicKey) :
    (ix.rebuildAgeBucketsIndex P set score).buckets spk
      = set.classified spk (P.matureBound score) := by
  obtain ⟨hlt₁, hlt₂, hlt₃⟩ := hfits.classified spk (P.matureBound score)
  have hfold := foldl_addCoin_eq spk (P.matureBound score) set.entries {}
  refine hfold.trans ?_
  simp only [Nat.zero_add]
  refine congr (congr (congrArg AgeBuckets.mk (min_eq_left ?_)) (min_eq_left ?_)) (min_eq_left ?_)
  · exact Nat.le_sub_one_of_lt hlt₁
  · exact Nat.le_sub_one_of_lt hlt₂
  · exact Nat.le_sub_one_of_lt (hlt₃.trans (by decide))

/-- The index of a node is exact at a score, its queue complete above the retention of the
highest one. -/
structure AgeInvariant (P : CoinAgeParams) (n : AgeNode) (score highest : ℕ) : Prop where
  watermark : n.index.watermark = some score
  maturity_le : P.coinAgeMaturityW ≤ score
  le_highest : score ≤ highest
  highest_le : highest ≤ score + P.coinAgeRetention
  fits : n.utxos.Fits
  buckets : ∀ spk, n.index.buckets spk = n.utxos.classified spk (P.matureBound score)
  backed : Backed P n.utxos n.index.queue
  queued : Queued P (highest - P.coinAgeRetention) n.utxos n.index.queue
  unclamped : n.index.clamped = false

namespace AgeInvariant

variable {P : CoinAgeParams} {n : AgeNode} {score highest : ℕ}

/-- A rebuilt node. -/
theorem rebuilt {set : UtxoCollection} (hfits : set.Fits) (hw : P.coinAgeMaturityW ≤ score) :
    AgeInvariant P (.rebuilt P set score) score score where
  watermark := rfl
  maturity_le := hw
  le_highest := le_rfl
  highest_le := Nat.le_add_right _ _
  fits := hfits
  buckets := buckets_rebuild P _ hfits score
  backed := backed_rebuild P _ set score
  queued := queued_rebuild P _ set score
  unclamped := rfl

variable (h : AgeInvariant P n score highest) {c : VirtualCommit}
  (hd : c.diff.Applies n.utxos.get?) (hw : P.coinAgeMaturityW ≤ c.daaScore)
  (hhorizon : highest ≤ c.daaScore + P.coinAgeRetention)
include h hd hw hhorizon

/-- A sweep within the retention moves the split to the new score and clamps nothing. -/
theorem sweep :
    let swept := n.index.sweepMaturationQueue P c.daaScore c.diff
    swept.2 = false ∧ swept.1.watermark = some c.daaScore ∧ swept.1.clamped = false ∧
      ∀ spk, swept.1.buckets spk = n.utxos.classified spk (P.matureBound c.daaScore) := by
  have hle := h.le_highest
  rw [sweepMaturationQueue, h.watermark, Option.getD_some]
  dsimp only
  by_cases hdrop : c.daaScore < score
  · have hread := h.backed.filter_readded (show ApplyInTurn n.utxos [c.diff] from ⟨hd, trivial⟩)
      c.daaScore score
    simp only [any_cons, any_nil, Bool.or_false] at hread
    rw [if_pos hdrop, if_neg (by omega), hread]
    have hfold := fun spk => foldDue_dueRange h.fits h.backed h.queued (b := score)
      (show highest - P.coinAgeRetention ≤ c.daaScore by omega) hw hdrop.le spk
    refine ⟨rfl, rfl, ?_, fun spk => ?_⟩
    · rw [h.unclamped, Bool.false_or, any_eq_false]
      intro d _
      obtain ⟨hmat, -⟩ := classified_crossing n.utxos d.2.scriptPublicKey hw hdrop.le
      rw [h.buckets, hfold]
      simp only [decide_eq_true_eq]
      omega
    · dsimp only
      rw [h.buckets, hfold, demote_crossing h.fits hw hdrop.le]
  · rw [if_neg hdrop]
    have hrise := not_lt.mp hdrop
    have hfold := fun spk => foldDue_dueRange h.fits h.backed h.queued (b := c.daaScore)
      (Nat.sub_le_of_le_add h.highest_le) h.maturity_le hrise spk
    refine ⟨rfl, rfl, ?_, fun spk => ?_⟩
    · rw [h.unclamped, Bool.false_or, any_eq_false]
      intro d _
      obtain ⟨-, himm, hmass⟩ :=
        classified_crossing n.utxos d.2.scriptPublicKey h.maturity_le hrise
      rw [h.buckets, hfold]
      simp only [decide_eq_true_eq]
      omega
    · dsimp only
      rw [h.buckets, hfold, promote_crossing h.fits h.maturity_le hrise]

/-- **A commit keeps the invariant.** -/
theorem commit (hfits : (c.diff.writeTo n.utxos).Fits) :
    AgeInvariant P (n.commit P c) c.daaScore (max highest c.daaScore) := by
  obtain ⟨hasks, hwatermark, hclamped, hbuckets⟩ := h.sweep hd hw hhorizon
  have hnode : n.commit P c = ⟨c.diff.writeTo n.utxos,
      (n.index.sweepMaturationQueue P c.daaScore c.diff).1.applyAgeDiff P c.diff c.daaScore⟩ := by
    rw [AgeNode.commit]
    rw [hasks]
    rfl
  have hqueued := h.queued.mono (Nat.sub_le_sub_right (le_max_left highest c.daaScore)
    P.coinAgeRetention)
  have hqueued := hqueued.sweep (Nat.sub_le_sub_right (le_max_right highest c.daaScore) _) c.diff
  rw [hnode]
  exact {
    watermark := hwatermark
    maturity_le := hw
    le_highest := le_max_right _ _
    highest_le := max_le hhorizon (Nat.le_add_right _ _)
    fits := hfits
    buckets := fun spk => by
      rw [applyAgeDiff]
      dsimp only
      rw [hbuckets, (change_classified hd h.fits hfits spk _).1]
    backed := (h.backed.sweep c.daaScore c.diff).applyAgeDiff hd c.daaScore
    queued := hqueued.applyAgeDiff c.diff c.daaScore
    unclamped := by
      rw [applyAgeDiff]
      rw [hclamped, Bool.false_or, any_eq_false]
      intro spk _
      rw [hbuckets, (change_classified hd h.fits hfits spk _).2]
      exact Bool.false_ne_true }

end AgeInvariant

/-! ### Runs -/

/-- The commits are consistent: every diff applies to the set it meets, the sums of the set it
leads to fit, and every score is at least the maturity and within the retention of the highest
one so far. -/
def ConsistentCommits (P : CoinAgeParams) : UtxoCollection → ℕ → List VirtualCommit → Prop
  | _, _, [] => True
  | set, highest, c :: cs =>
    c.diff.Applies set.get? ∧ P.coinAgeMaturityW ≤ c.daaScore ∧
      highest ≤ c.daaScore + P.coinAgeRetention ∧ (c.diff.writeTo set).Fits ∧
      ConsistentCommits P (c.diff.writeTo set) (max highest c.daaScore) cs

/-- The invariant along a run, at the score of its last commit. -/
theorem AgeInvariant.run {P : CoinAgeParams} (commits : List VirtualCommit) (c : VirtualCommit) :
    ∀ {n : AgeNode} {score highest : ℕ}, AgeInvariant P n score highest →
      ConsistentCommits P n.utxos highest (commits ++ [c]) →
      ∃ highest', AgeInvariant P ((commits ++ [c]).foldl (AgeNode.commit P) n) c.daaScore
        highest' := by
  induction commits with
  | nil =>
    rintro n score highest h ⟨hd, hw, hhorizon, hfits, -⟩
    exact ⟨_, h.commit hd hw hhorizon hfits⟩
  | cons b commits ih =>
    rintro n score highest h ⟨hd, hw, hhorizon, hfits, hrest⟩
    exact ih (h.commit hd hw hhorizon hfits) hrest

/-- **The coin-age index is exact**: after every commit of a consistent run the buckets of
every address are the direct classification of the set at the committed score, which is what
a rebuild there writes, and no update was clamped. -/
theorem age_index_exact (P : CoinAgeParams) (set : UtxoCollection) (start : ℕ)
    (commits : List VirtualCommit) (c : VirtualCommit) (hstart : P.coinAgeMaturityW ≤ start)
    (hfits : set.Fits) (hrun : ConsistentCommits P set start (commits ++ [c])) :
    let n := (commits ++ [c]).foldl (AgeNode.commit P) (.rebuilt P set start)
    (∀ spk, n.index.buckets spk = n.utxos.classified spk (P.matureBound c.daaScore)) ∧
      (∀ ix spk, n.index.buckets spk
        = (rebuildAgeBucketsIndex P ix n.utxos c.daaScore).buckets spk) ∧
      n.index.clamped = false := by
  obtain ⟨_, h⟩ := (AgeInvariant.rebuilt hfits hstart).run commits c hrun
  refine ⟨h.buckets, fun ix spk => ?_, h.unclamped⟩
  rw [h.buckets, buckets_rebuild P ix h.fits]

/-- One coin fits if its amount and its anchor mass do. -/
theorem fits_sampleCoin {amount effectiveDaa : ℕ} (hamount : amount < 2 ^ 64)
    (hmass : amount * effectiveDaa < 2 ^ 127) : (sampleCoin amount effectiveDaa).Fits := by
  intro spk
  by_cases hspk : (⟨0, []⟩ : ScriptPublicKey) = spk
  · simpa [spkAmount, spkAnchorMass, total, sampleCoin,
      OrdMap.insert, insertEntry, OrdMap.empty, hspk] using And.intro hamount hmass
  · simp [spkAmount, spkAnchorMass, total, sampleCoin,
      OrdMap.insert, insertEntry, OrdMap.empty, hspk]

/-- A coin is re-anchored on a rise by 5 and crosses back over its maturity on the drop. -/
theorem age_index_exact_reanchored :
    let P : CoinAgeParams := ⟨10, 5⟩
    let n := [⟨17, ⟨sampleCoin 5 4, sampleCoin 5 1⟩⟩, ⟨13, {}⟩].foldl (AgeNode.commit P)
      (.rebuilt P (sampleCoin 5 1) 12)
    n.index.buckets ⟨0, []⟩ = ⟨0, 5, 20⟩ ∧ n.index.clamped = false := by
  intro P n
  have hreanchored : (⟨sampleCoin 5 4, sampleCoin 5 1⟩ : UtxoDiff).writeTo (sampleCoin 5 1)
      = sampleCoin 5 4 := by decide
  obtain ⟨hbuckets, -, hclamped⟩ := age_index_exact P (sampleCoin 5 1) 12
    [⟨17, ⟨sampleCoin 5 4, sampleCoin 5 1⟩⟩] ⟨13, {}⟩ (by decide)
    (fits_sampleCoin (by decide) (by decide))
    ⟨UtxoDiff.Applies.of_entries (by decide) (by decide), by decide, by decide,
      hreanchored ▸ fits_sampleCoin (by decide) (by decide),
      UtxoDiff.Applies.of_entries (by decide) (by decide), by decide, by decide,
      by rw [hreanchored]; exact fits_sampleCoin (by decide) (by decide), trivial⟩
  exact ⟨(hbuckets ⟨0, []⟩).trans (by decide), hclamped⟩

/-- Two coins of one address whose sum does not fit: the rebuild saturates, and removing one
of them leaves one unit less than the other. -/
theorem age_index_saturated :
    let P : CoinAgeParams := ⟨10, 5⟩
    let coin : UtxoEntry := ⟨2 ^ 63, ⟨0, []⟩, 1, false, 1⟩
    let spent : UtxoCollection := .insert .empty ⟨1, 1⟩ coin
    let set : UtxoCollection := spent.insert ⟨1, 0⟩ coin
    let n := (AgeNode.rebuilt P set 12).commit P ⟨12, ⟨.empty, spent⟩⟩
    (⟨.empty, spent⟩ : UtxoDiff).Applies set.get? ∧
      n.index.buckets ⟨0, []⟩ ≠ n.utxos.classified ⟨0, []⟩ (P.matureBound 12) := by
  refine ⟨UtxoDiff.Applies.of_entries (by decide) (by decide), ?_⟩
  decide

end KeryxNode
