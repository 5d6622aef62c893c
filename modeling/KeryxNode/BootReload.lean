import Mathlib.Data.Finset.Lattice.Lemmas
import KeryxNode.SealedCommit

/-!
# What Boot Reads of the Stores

Boot rebuilds the memory mirrors from the four stores alone. This module says what each
mirror is as a function of the rows: the burned map and the first sightings *are* their
stores, the history of an identity is its strike rows in score order, its suspension is the
last of those rows that is an executed one, the wins of a score are the reward rows of that
score. `Mirrored` collects these equations for any mirrors, booted or live.
-/

namespace KeryxNode

open ServiceStores List OrdMap BootState

variable (N : Network) (l : List ((ℕ ×ₗ Hash) × StrikeEntry))

/-! ### Rows -/

namespace ServiceStores

/-- The rows of the four stores, in the order boot reads them. -/
def rows (s : ServiceStores) : List StoreWrite :=
  s.burn.entries.map (fun e => .burn e.1 e.2) ++
    s.strike.entries.map (fun e => .strike (ofLex e.1).1 (ofLex e.1).2 e.2) ++
    s.firstSeen.entries.map (fun e => .firstSeen e.1 e.2) ++
    s.reward.entries.map fun e => .reward e.1 e.2

/-- The mirrored form of the strike-log entries of an identity, in log order. -/
def strikeRowsIn (l : List ((ℕ ×ₗ Hash) × StrikeEntry)) (id : Hash) : List StrikeRow :=
  (l.filter fun e => decide ((ofLex e.1).2 = id)).map fun e =>
    ⟨(ofLex e.1).1, e.2.count, e.2.lastDaa⟩

/-- The strike rows of an identity, in score order. -/
def strikeRows (s : ServiceStores) (id : Hash) : List StrikeRow :=
  strikeRowsIn s.strike.entries id

/-- The wins of a score among reward entries. -/
def winsIn (l : List (Hash × RewardEntry)) (d : ℕ) :
    List (Hash × ℕ × Option ScriptPublicKey) :=
  (l.filter fun e => decide (e.2.daa = d)).map fun e => (e.1, e.2.amount, e.2.spk)

end ServiceStores

/-- Whether a strike row is the one of an executed suspension. -/
def StrikeRow.suspends (r : StrikeRow) : Bool :=
  decide (r.count = 0 ∧ r.lastDaa = r.daa)

/-- The deadline the strike rows of an identity leave: that of its last suspension. -/
def Network.deadlineOf (N : Network) (rows : List StrikeRow) : Option ℕ :=
  ((rows.filter StrikeRow.suspends).getLast?).map fun r =>
    r.daa + N.finalityDepth + serviceSuspensionDaa

/-- The highest score of a list of rows. -/
def frontierOf (rows : List StoreWrite) : ℕ :=
  rows.foldl (fun c w => max c w.daa) 0

/-- The frontier is the least bound of the scores. -/
theorem frontierOf_le_iff {rows : List StoreWrite} {n : ℕ} :
    frontierOf rows ≤ n ↔ ∀ w ∈ rows, w.daa ≤ n := by
  have hfold : ∀ (l : List StoreWrite) (c : ℕ),
      l.foldl (fun c w => max c w.daa) c ≤ n ↔ c ≤ n ∧ ∀ w ∈ l, w.daa ≤ n := by
    intro l
    induction l with
    | nil => simp
    | cons w l ih =>
      intro c
      rw [foldl_cons, ih, max_le_iff, forall_mem_cons, and_assoc]
  rw [frontierOf, hfold]
  exact and_iff_right (Nat.zero_le n)

/-- The wins mirrored under a score. -/
def ServiceMirrors.winsAt (m : ServiceMirrors) (d : ℕ) :
    List (Hash × ℕ × Option ScriptPublicKey) :=
  (m.rewardRecent.get? d).getD []

/-! ### Mirrors of stores -/

/-- The mirrors are those of the stores. Keys without content are not mirrored. -/
structure Mirrored (N : Network) (s : ServiceStores) (m : ServiceMirrors) : Prop where
  burned : m.burned = s.burn
  firstSeen : m.standing.firstSeen = s.firstSeen
  history : ∀ id, (m.standing.history.get? id).getD [] = s.strikeRows id
  history_ne : ∀ id, m.standing.history.get? id ≠ some []
  suspended : ∀ id, m.suspended.get? id = N.deadlineOf (s.strikeRows id)
  rewarded : ∀ h, h ∈ m.rewarded ↔ s.reward.contains h = true
  wins : ∀ d, (m.winsAt d).Perm (winsIn s.reward.entries d)
  wins_ne : ∀ d, m.rewardRecent.get? d ≠ some []

/-- Mirrors that agree on everything rows decide; wins of one score may come in another
order. -/
structure SameMirrors (m m' : ServiceMirrors) : Prop where
  burned : m.burned = m'.burned
  suspended : m.suspended = m'.suspended
  standing : m.standing = m'.standing
  rewarded : m.rewarded = m'.rewarded
  wins : ∀ d, (m.winsAt d).Perm (m'.winsAt d)
  winScores : m.rewardRecent.keys = m'.rewardRecent.keys

/-- Two mirrors of the same stores are the same. -/
theorem Mirrored.same {N : Network} {s : ServiceStores} {m m' : ServiceMirrors}
    (h : Mirrored N s m) (h' : Mirrored N s m') : SameMirrors m m' where
  burned := h.burned.trans h'.burned.symm
  suspended := ext_get? fun id => (h.suspended id).trans (h'.suspended id).symm
  standing := by
    have hseen : m.standing.firstSeen = m'.standing.firstSeen := h.firstSeen.trans h'.firstSeen.symm
    have hhist : m.standing.history = m'.standing.history := ext_get? fun id => by
      -- no history is empty, so a missing one is told from the others
      have hne := h.history_ne id
      have hne' := h'.history_ne id
      have hsame := (h.history id).trans (h'.history id).symm
      cases hm : m.standing.history.get? id <;> cases hm' : m'.standing.history.get? id <;> simp_all
    calc m.standing = ⟨m.standing.firstSeen, m.standing.history⟩ := rfl
      _ = ⟨m'.standing.firstSeen, m'.standing.history⟩ := by rw [hseen, hhist]
  rewarded := Finset.ext fun x => (h.rewarded x).trans (h'.rewarded x).symm
  wins d := (h.wins d).trans (h'.wins d).symm
  winScores := by
    -- A score is listed exactly when it has a win, and both list the same wins.
    have hnil : ∀ {m : ServiceMirrors}, (∀ d, m.rewardRecent.get? d ≠ some []) →
        ∀ d, m.rewardRecent.get? d = none ↔ m.winsAt d = [] := by
      intro m hne d
      have := hne d
      rw [ServiceMirrors.winsAt]
      cases hm : m.rewardRecent.get? d <;> simp_all
    refine keys_eq_of_mem_iff fun d => ?_
    rw [← not_iff_not, not_mem_keys_iff, not_mem_keys_iff, hnil h.wins_ne, hnil h'.wins_ne]
    have hperm := (h.wins d).trans (h'.wins d).symm
    constructor
    · exact fun hm => (hm ▸ hperm).nil_eq.symm
    · exact fun hm => (hm ▸ hperm).eq_nil

/-! ### The four passes of boot -/

namespace BootState

variable (N : Network)

/-- Loading burned outpoints writes them into the burned map. -/
theorem foldl_loadBurn (l : List (TransactionOutpoint × ℕ)) (s : BootState) :
    l.foldl loadBurn s =
      { mirrors := { s.mirrors with
          burned := l.foldl (fun m e => m.insert e.1 e.2) s.mirrors.burned }
        rows := s.rows ++ l.map fun e => .burn e.1 e.2
        cursor := (l.map fun e => StoreWrite.burn e.1 e.2).foldl (fun c w => max c w.daa)
          s.cursor } := by
  induction l generalizing s with
  | nil => simp
  | cons e l ih => simp [ih, loadBurn, note]

/-- Loading the strike log records its rows and suspensions. -/
theorem foldl_loadStrike (l : List ((ℕ ×ₗ Hash) × StrikeEntry)) (s : BootState) :
    l.foldl (loadStrike N) s =
      { mirrors := { s.mirrors with
          standing := l.foldl (fun x e => (x.recordStrike (ofLex e.1).2
            ⟨(ofLex e.1).1, e.2.count, e.2.lastDaa⟩).1) s.mirrors.standing
          suspended := l.foldl (fun m e =>
            if e.2.count = 0 ∧ e.2.lastDaa = (ofLex e.1).1 then
              m.insert (ofLex e.1).2 (e.2.lastDaa + N.finalityDepth + serviceSuspensionDaa)
            else m) s.mirrors.suspended }
        rows := s.rows ++ l.map fun e => .strike (ofLex e.1).1 (ofLex e.1).2 e.2
        cursor := (l.map fun e => StoreWrite.strike (ofLex e.1).1 (ofLex e.1).2 e.2).foldl
          (fun c w => max c w.daa) s.cursor } := by
  induction l generalizing s with
  | nil => simp
  | cons e l ih => simp [ih, loadStrike, note]

/-- Loading first sightings records them. -/
theorem foldl_loadFirstSeen (l : List (Hash × ℕ)) (s : BootState) :
    l.foldl loadFirstSeen s =
      { mirrors := { s.mirrors with
          standing := l.foldl (fun x e => (x.recordSighting e.1 e.2).1) s.mirrors.standing }
        rows := s.rows ++ l.map fun e => .firstSeen e.1 e.2
        cursor := (l.map fun e => StoreWrite.firstSeen e.1 e.2).foldl (fun c w => max c w.daa)
          s.cursor } := by
  induction l generalizing s with
  | nil => simp
  | cons e l ih => simp [ih, loadFirstSeen, note]

/-- Loading rewards collects their hashes and, under each score, their wins. -/
theorem foldl_loadReward (l : List (Hash × RewardEntry)) (s : BootState) :
    l.foldl loadReward s =
      { mirrors := { s.mirrors with
          rewarded := l.foldl (fun r e => insert e.1 r) s.mirrors.rewarded
          rewardRecent := l.foldl (fun m e => m.insert e.2.daa
            ((m.get? e.2.daa).getD [] ++ [(e.1, e.2.amount, e.2.spk)])) s.mirrors.rewardRecent }
        rows := s.rows ++ l.map fun e => .reward e.1 e.2
        cursor := (l.map fun e => StoreWrite.reward e.1 e.2).foldl (fun c w => max c w.daa)
          s.cursor } := by
  induction l generalizing s with
  | nil => simp
  | cons e l ih => simp [ih, loadReward, note, ServiceMirrors.pushReward]

/-- Boot reads exactly the rows, and its frontier is theirs. -/
theorem rows_load (s : ServiceStores) :
    (load N s).rows = s.rows ∧ (load N s).cursor = frontierOf s.rows := by
  simp only [load, foldl_loadBurn, foldl_loadStrike, foldl_loadFirstSeen, foldl_loadReward,
    ServiceStores.rows, frontierOf, foldl_append, nil_append, and_self]

end BootState

/-! ### What the passes leave -/

/-- A strictly sorted log lists an identity's rows in strictly increasing score order. -/
theorem sorted_strikeRowsIn {l : List ((ℕ ×ₗ Hash) × StrikeEntry)}
    (h : l.Pairwise fun a b => a.1 < b.1) (id : Hash) :
    (strikeRowsIn l id).Pairwise fun a b => a.daa < b.daa := by
  rw [strikeRowsIn, pairwise_map]
  refine Pairwise.imp_of_mem (fun {a b} ha hb hab => ?_) (h.filter _)
  have ha := of_decide_eq_true (mem_filter.mp ha).2
  have hb := of_decide_eq_true (mem_filter.mp hb).2
  rcases Prod.Lex.lt_iff.mp hab with hlt | ⟨-, hlt⟩
  · exact hlt
  · exact absurd hlt (by rw [ha, hb]; exact lt_irrefl _)

/-- Recording a row newer than all rows of its identity appends it. -/
theorem recordStrike_of_lt {x : StandingIndex} {id : Hash} {row : StrikeRow}
    {rows : List StrikeRow} (hrows : (x.history.get? id).getD [] = rows)
    (hsorted : rows.Pairwise fun a b => a.daa < b.daa) (hlt : ∀ r ∈ rows, r.daa < row.daa) :
    x.recordStrike id row = ({ x with history := x.history.insert id (rows ++ [row]) }, true) := by
  have hany : rows.any (fun r => decide (r.daa = row.daa)) = false := by
    rw [any_eq_false]
    intro r hr
    simpa using (hlt r hr).ne
  have hsort : (rows ++ [row]).insertionSort (fun a b => a.daa ≤ b.daa) = rows ++ [row] := by
    refine Pairwise.insertionSort_eq ?_
    refine pairwise_append.mpr ⟨hsorted.imp fun h => h.le, pairwise_singleton _ _, ?_⟩
    intro a ha b hb
    rw [mem_singleton.mp hb]
    exact (hlt a ha).le
  simp only [StandingIndex.recordStrike, hrows, hany, hsort, Bool.false_eq_true, if_false]

/-- One more log entry: its identity has one more row. -/
theorem strikeRowsIn_concat (e : (ℕ ×ₗ Hash) × StrikeEntry) (id : Hash) :
    strikeRowsIn (l ++ [e]) id =
      if (ofLex e.1).2 = id then
        strikeRowsIn l id ++ [⟨(ofLex e.1).1, e.2.count, e.2.lastDaa⟩]
      else strikeRowsIn l id := by
  split
  · next h => simp [strikeRowsIn, h]
  · next h => simp [strikeRowsIn, h]

/-- One more row: a suspension sets the deadline, any other row leaves it. -/
theorem Network.deadlineOf_concat (rows : List StrikeRow) (r : StrikeRow) :
    N.deadlineOf (rows ++ [r]) =
      if r.suspends then some (r.daa + N.finalityDepth + serviceSuspensionDaa)
      else N.deadlineOf rows := by
  cases h : r.suspends <;> simp [h, deadlineOf]

/-- The standing index after the strike log: each identity has its rows, no sighting is
touched. -/
theorem history_foldl_recordStrike {l : List ((ℕ ×ₗ Hash) × StrikeEntry)}
    (h : l.Pairwise fun a b => a.1 < b.1) :
    let x := l.foldl (fun x e => (x.recordStrike (ofLex e.1).2
      ⟨(ofLex e.1).1, e.2.count, e.2.lastDaa⟩).1) ({} : StandingIndex)
    (∀ id, (x.history.get? id).getD [] = strikeRowsIn l id) ∧
      (∀ id, x.history.get? id ≠ some []) ∧ x.firstSeen = .empty := by
  -- From the right: the last entry of a sorted log is newer than all others.
  induction l using reverseRecOn with
  | nil => exact ⟨fun _ => rfl, fun _ hx => (by cases hx), rfl⟩
  | append_singleton l e ih =>
    obtain ⟨hsorted, -, hlast⟩ := pairwise_append.mp h
    obtain ⟨hhist, hne, hseen⟩ := ih hsorted
    rw [foldl_append, foldl_cons, foldl_nil]
    have hlt : ∀ r ∈ strikeRowsIn l (ofLex e.1).2, r.daa < (ofLex e.1).1 := by
      intro r hr
      obtain ⟨a, ha, rfl⟩ := mem_map.mp hr
      obtain ⟨ha, hid⟩ := mem_filter.mp ha
      rcases Prod.Lex.lt_iff.mp (hlast a ha e (mem_singleton_self e)) with hlt | ⟨-, hlt⟩
      · exact hlt
      · exact absurd hlt (by rw [of_decide_eq_true hid]; exact lt_irrefl _)
    rw [recordStrike_of_lt (hhist _) (sorted_strikeRowsIn hsorted _) hlt]
    refine ⟨fun id => ?_, fun id => ?_, hseen⟩
    · rw [strikeRowsIn_concat, get?_insert]
      split
      · next hid => simp [hid]
      · next hid =>
        rw [if_neg (Ne.symm hid)]
        exact hhist id
    · rw [get?_insert]
      split
      · simp
      · exact hne id

/-- The suspensions after the strike log. -/
theorem suspended_foldl_loadStrike (id : Hash) :
    (l.foldl (fun m e =>
      if e.2.count = 0 ∧ e.2.lastDaa = (ofLex e.1).1 then
        m.insert (ofLex e.1).2 (e.2.lastDaa + N.finalityDepth + serviceSuspensionDaa)
      else m) (empty : OrdMap Hash ℕ)).get? id
      = N.deadlineOf (strikeRowsIn l id) := by
  induction l using reverseRecOn with
  | nil => rfl
  | append_singleton l e ih =>
    rw [foldl_append, foldl_cons, foldl_nil, strikeRowsIn_concat]
    by_cases hsus : e.2.count = 0 ∧ e.2.lastDaa = (ofLex e.1).1
    · rw [if_pos hsus, get?_insert]
      by_cases hid : id = (ofLex e.1).2
      · rw [if_pos hid, if_pos hid.symm, N.deadlineOf_concat,
          if_pos (by simpa [StrikeRow.suspends] using hsus), hsus.2]
      · rw [if_neg hid, if_neg (Ne.symm hid)]
        exact ih
    · rw [if_neg hsus, ih]
      split
      · rw [N.deadlineOf_concat, if_neg (by simpa [StrikeRow.suspends] using hsus)]
      · rfl

/-- Sorted first sightings are all recorded, and no history is touched. -/
theorem firstSeen_foldl_recordSighting {l : List (Hash × ℕ)} (h : l.Pairwise fun a b => a.1 < b.1)
    {x : StandingIndex} (hx : x.firstSeen = .empty) :
    l.foldl (fun x e => (x.recordSighting e.1 e.2).1) x
      = { x with firstSeen := l.foldl (fun m e => m.insert e.1 e.2) .empty } := by
  induction l using reverseRecOn with
  | nil => rw [foldl_nil, foldl_nil, ← hx]
  | append_singleton l e ih =>
    obtain ⟨hsorted, -, hlast⟩ := pairwise_append.mp h
    have hnew : (l.foldl (fun m e => m.insert e.1 e.2) (empty : OrdMap Hash ℕ)).get? e.1
        = none := by
      rw [get?_foldl_insert _ _ _ hsorted, get?_empty, Option.or_none,
        Option.eq_none_iff_forall_ne_some]
      intro d hd
      have := hlast _ ((lookup_eq_some_iff hsorted).mp hd) e (mem_singleton_self e)
      exact lt_irrefl _ this
    rw [foldl_append, foldl_append, ih hsorted]
    simp only [foldl_cons, foldl_nil, StandingIndex.recordSighting,
      contains_eq_false.mpr hnew, Bool.false_eq_true, if_false]

/-- The wins after the reward rows, score by score. -/
theorem winsAt_foldl_loadReward (l : List (Hash × RewardEntry)) :
    let m := l.foldl (fun m e => m.insert e.2.daa
      ((m.get? e.2.daa).getD [] ++ [(e.1, e.2.amount, e.2.spk)]))
      (empty : OrdMap ℕ (List (Hash × ℕ × Option ScriptPublicKey)))
    (∀ d, (m.get? d).getD [] = winsIn l d) ∧ ∀ d, m.get? d ≠ some [] := by
  induction l using reverseRecOn with
  | nil => exact ⟨fun _ => rfl, fun _ hx => (by cases hx)⟩
  | append_singleton l e ih =>
    obtain ⟨hwins, hne⟩ := ih
    rw [foldl_append, foldl_cons, foldl_nil]
    refine ⟨fun d => ?_, fun d => ?_⟩
    · rw [get?_insert]
      split
      · next hd => simp [hd, hwins, winsIn]
      · next hd => simp [hwins, winsIn, Ne.symm hd]
    · rw [get?_insert]
      split
      · simp
      · exact hne d

/-- The rewarded hashes after the reward rows are their keys. -/
theorem mem_foldl_rewarded (l : List (Hash × RewardEntry)) (r : Finset Hash) (h : Hash) :
    h ∈ l.foldl (fun r e => insert e.1 r) r ↔ h ∈ r ∨ h ∈ l.map Prod.fst := by
  induction l generalizing r with
  | nil => simp
  | cons e l ih =>
    rw [foldl_cons, ih, Finset.mem_insert, map_cons, mem_cons]
    tauto

/-! ### Boot -/

/-- **Boot mirrors the stores.** -/
theorem mirrored_loadServiceBurned (s : ServiceStores) (pp : Hash) :
    Mirrored N s (loadServiceBurned N s pp).1 := by
  obtain ⟨hhist, hhist_ne, hseen⟩ := history_foldl_recordStrike s.strike.sorted
  obtain ⟨hwins, hwins_ne⟩ := winsAt_foldl_loadReward s.reward.entries
  have hsighted := firstSeen_foldl_recordSighting s.firstSeen.sorted hseen
  simp only [loadServiceBurned, load, foldl_loadBurn,
    foldl_loadStrike, foldl_loadFirstSeen, foldl_loadReward]
  refine ⟨overlay_empty_left s.burn, ?_, ?_, ?_, ?_, ?_, ?_, hwins_ne⟩
  · rw [hsighted]
    exact overlay_empty_left s.firstSeen
  · rw [hsighted]
    exact hhist
  · rw [hsighted]
    exact hhist_ne
  · exact suspended_foldl_loadStrike N s.strike.entries
  · intro h
    rw [mem_foldl_rewarded, contains_eq_true, ← mem_keys_iff]
    simp [OrdMap.keys]
  · exact fun d => hwins d ▸ Perm.refl _

/-- The rows with their scores, as the commitment takes them. -/
def ServiceStores.sealable (s : ServiceStores) : Multiset (ℕ × List UInt8) :=
  (s.rows.map fun w => (w.daa, w.rowBytes) : List (ℕ × List UInt8))

/-- Boot commits to the rows and puts the frontier at the highest of them. -/
theorem sealed_loadServiceBurned (s : ServiceStores) (pp : Hash) :
    ServiceCommitIndex.SealedTo N.finalize s.sealable none (loadServiceBurned N s pp).1.commit ∧
      (loadServiceBurned N s pp).2 = frontierOf s.rows := by
  obtain ⟨hrows, hcursor⟩ := rows_load N s
  refine ⟨?_, hcursor⟩
  simp only [loadServiceBurned, hrows]
  exact .rebuild _

end KeryxNode
