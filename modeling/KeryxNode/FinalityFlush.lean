import KeryxNode.BootReload

/-!
# The Finality Flush and its Rows

The flush writes rows one by one and keeps the mirrors beside them. As long as every row is
*fresh* — no row of its key is stored yet, rows come in score order — the mirrors stay those
boot would load, the commitment stays that of the row set and the frontier stays the highest
score stored: the state is `InStep`. Freshness is where the flush can go wrong: a row whose
key is taken is skipped in the stores while the mirrors, or the frontier, still move.
-/

namespace KeryxNode

open List ServiceStores OrdMap StoreWrite ServiceEvent

variable {w : StoreWrite} {d : ℕ}

/-! ### Keys of rows -/

/-- The key of a row. -/
inductive RowKey where
  | burn (outpoint : TransactionOutpoint)
  | strike (daa : ℕ) (miner : Hash)
  | firstSeen (miner : Hash)
  | reward (requestHash : Hash)
  deriving DecidableEq

/-- The key a row is stored under. -/
def StoreWrite.key : StoreWrite → RowKey
  | burn o _ => .burn o
  | strike daa miner _ => .strike daa miner
  | firstSeen miner _ => .firstSeen miner
  | reward rh _ => .reward rh

namespace ServiceStores

variable {s : ServiceStores} {id : Hash}

/-- Whether a row is stored under a key. -/
def has (s : ServiceStores) : RowKey → Bool
  | .burn o => s.burn.contains o
  | .strike daa miner => s.strike.contains (toLex (daa, miner))
  | .firstSeen miner => s.firstSeen.contains miner
  | .reward rh => s.reward.contains rh

/-- After a write its key is stored, the others as before. -/
theorem has_write (s : ServiceStores) (w : StoreWrite) (k : RowKey) :
    (s.write w).has k = (decide (k = w.key) || s.has k) := by
  cases w <;> cases k <;>
    simp only [write, has, key, OrdMap.contains, OrdMap.get?_insert, reduceCtorEq,
      decide_false, Bool.false_or, EmbeddingLike.apply_eq_iff_eq, Prod.mk.injEq] <;>
    split <;> simp [*]

theorem has_writeAll (s : ServiceStores) (ws : List StoreWrite) (k : RowKey) :
    (s.writeAll ws).has k = (decide (k ∈ ws.map key) || s.has k) := by
  induction ws generalizing s with
  | nil => simp [writeAll]
  | cons w ws ih =>
    have hcons : s.writeAll (w :: ws) = (s.write w).writeAll ws := rfl
    rw [hcons, ih, has_write]
    by_cases hk : k = w.key <;> simp [hk]

theorem writeAll_append (s : ServiceStores) (ws ws' : List StoreWrite) :
    s.writeAll (ws ++ ws') = (s.writeAll ws).writeAll ws' :=
  foldl_append

/-- The rows can be written in this order without meeting a stored key. -/
structure Fresh (s : ServiceStores) (ws : List StoreWrite) : Prop where
  nodup : (ws.map key).Nodup
  new : ∀ w ∈ ws, s.has w.key = false

namespace Fresh

variable {s : ServiceStores} {ws ws' : List StoreWrite}

theorem nodup_append (h : s.Fresh (ws ++ ws')) : (ws.map key ++ ws'.map key).Nodup := by
  rw [← map_append]
  exact h.nodup

theorem left (h : s.Fresh (ws ++ ws')) : s.Fresh ws where
  nodup := h.nodup_append.of_append_left
  new w hw := h.new w (mem_append_left _ hw)

/-- What is left to write stays fresh. -/
theorem right (h : s.Fresh (ws ++ ws')) : (s.writeAll ws).Fresh ws' where
  nodup := h.nodup_append.of_append_right
  new w hw := by
    rw [has_writeAll, h.new w (mem_append_right _ hw), Bool.or_false, decide_eq_false_iff_not]
    intro hmem
    exact (nodup_append'.mp h.nodup_append).2.2 hmem (mem_map_of_mem hw)

/-- A fresh row is one more row. -/
theorem perm_rows_write (h : s.has w.key = false) :
    (s.write w).rows.Perm (w :: s.rows) := by
  cases w with
  | burn o daa =>
    have := (perm_entries_insert daa (contains_eq_false.mp h)).map
      fun e => StoreWrite.burn e.1 e.2
    exact ((this.append_right _).append_right _).append_right _
  | strike daa miner e =>
    have := (perm_entries_insert e (contains_eq_false.mp h)).map
      fun e => StoreWrite.strike (ofLex e.1).1 (ofLex e.1).2 e.2
    exact (((this.append_left _).trans perm_middle).append_right _).append_right _
  | firstSeen miner daa =>
    have := (perm_entries_insert daa (contains_eq_false.mp h)).map
      fun e => StoreWrite.firstSeen e.1 e.2
    exact ((this.append_left _).trans perm_middle).append_right _
  | reward rh e =>
    have := (perm_entries_insert e (contains_eq_false.mp h)).map
      fun e => StoreWrite.reward e.1 e.2
    exact (this.append_left _).trans perm_middle

/-- Writing fresh rows adds them to the rows. -/
theorem perm_rows_writeAll (h : s.Fresh ws) : (s.writeAll ws).rows.Perm (ws ++ s.rows) := by
  induction ws generalizing s with
  | nil => exact .refl _
  | cons w ws ih =>
    have hw : (s.write w).rows.Perm (w :: s.rows) := perm_rows_write (h.new w mem_cons_self)
    have hrest : (s.write w).Fresh ws := @right s [w] ws h
    calc (s.writeAll (w :: ws)).rows
        = ((s.write w).writeAll ws).rows := rfl
      _ |>.Perm (ws ++ (s.write w).rows) := ih hrest
      _ |>.Perm (ws ++ (w :: s.rows)) := hw.append_left ws
      _ |>.Perm (w :: ws ++ s.rows) := perm_middle

theorem mem_rows (h : s.Fresh ws) : w ∈ (s.writeAll ws).rows ↔ w ∈ ws ∨ w ∈ s.rows := by
  rw [h.perm_rows_writeAll.mem_iff, mem_append]

theorem daa_le (h : s.Fresh ws) (hws : ∀ w ∈ ws, w.daa ≤ d) (hle : ∀ w ∈ s.rows, w.daa ≤ d) :
    ∀ w ∈ (s.writeAll ws).rows, w.daa ≤ d := fun w hw =>
  (h.mem_rows.mp hw).elim (hws w) (hle w)

end Fresh

/-! ### Strike rows along a write -/

/-- The strike rows of an identity, read off the part of the log that is its own. -/
theorem strikeRows_eq (s : ServiceStores) (id : Hash) :
    s.strikeRows id = (s.strike.filter fun k _ => decide ((ofLex k).2 = id)).entries.map
      fun e => ⟨(ofLex e.1).1, e.2.count, e.2.lastDaa⟩ := rfl

theorem mem_strikeRows {r : StrikeRow} :
    r ∈ s.strikeRows id ↔
      ∃ e, s.strike.get? (toLex (r.daa, id)) = some e ∧ r = ⟨r.daa, e.count, e.lastDaa⟩ := by
  simp only [strikeRows, strikeRowsIn, mem_map, mem_filter, decide_eq_true_eq, get?_eq_some_iff]
  constructor
  · rintro ⟨⟨k, e⟩, ⟨hmem, rfl⟩, rfl⟩
    exact ⟨e, hmem, rfl⟩
  · rintro ⟨e, hmem, hr⟩
    exact ⟨(toLex (r.daa, id), e), ⟨hmem, rfl⟩, hr.symm⟩

/-- An identity has a row of a score exactly when the log has its key. -/
theorem has_strike_iff :
    s.has (.strike d id) = true ↔ ∃ r ∈ s.strikeRows id, r.daa = d := by
  rw [has, contains_eq_true]
  constructor
  · rintro ⟨e, he⟩
    exact ⟨⟨d, e.count, e.lastDaa⟩, mem_strikeRows.mpr ⟨e, he, rfl⟩, rfl⟩
  · rintro ⟨r, hr, rfl⟩
    obtain ⟨e, he, -⟩ := mem_strikeRows.mp hr
    exact ⟨e, he⟩

/-- A strike row is a row. -/
theorem mem_rows_of_mem_strikeRows {r : StrikeRow} (hr : r ∈ s.strikeRows id) :
    ∃ e, .strike r.daa id e ∈ s.rows := by
  obtain ⟨e, he, -⟩ := mem_strikeRows.mp hr
  simp only [rows, mem_append, mem_map]
  exact ⟨e, .inl (.inl (.inr ⟨_, get?_eq_some_iff.mp he, rfl⟩))⟩

theorem daa_le_of_mem_strikeRows (h : ∀ w ∈ s.rows, w.daa ≤ d) {r : StrikeRow}
    (hr : r ∈ s.strikeRows id) : r.daa ≤ d := by
  obtain ⟨e, he⟩ := mem_rows_of_mem_strikeRows hr
  exact h _ he

/-- Logging a row newer than all rows of its identity appends it there. -/
theorem strikeRows_write_strike (e : StrikeEntry) (h : ∀ r ∈ s.strikeRows id, r.daa < d)
    (id' : Hash) :
    (s.write (.strike d id e)).strikeRows id' =
      if id = id' then s.strikeRows id' ++ [⟨d, e.count, e.lastDaa⟩] else s.strikeRows id' := by
  rw [strikeRows_eq, strikeRows_eq]
  split
  · next hid =>
    subst hid
    have hown : ((s.write (.strike d id e)).strike.filter fun k _ => decide ((ofLex k).2 = id))
        = (s.strike.filter fun k _ => decide ((ofLex k).2 = id)).insert (toLex (d, id)) e :=
      filter_insert_of_pos s.strike e (decide_eq_true rfl)
    have hlast : ∀ x ∈ (s.strike.filter fun k _ => decide ((ofLex k).2 = id)).entries,
        x.1 < toLex (d, id) := fun x hx => Prod.Lex.lt_iff.mpr (.inl (h _ (mem_map_of_mem hx)))
    rw [hown, entries_insert_of_le, map_append]
    · congr 1
      exact congrArg (map _) (filter_eq_self.mpr fun x hx => decide_eq_true (hlast x hx))
    · exact fun x hx => (hlast x hx).le
  · next hid =>
    have hother : ((s.write (.strike d id e)).strike.filter fun k _ => decide ((ofLex k).2 = id'))
        = s.strike.filter fun k _ => decide ((ofLex k).2 = id') :=
      filter_insert_of_neg s.strike e (decide_eq_false hid)
    rw [hother]

end ServiceStores

/-! ### Mirrors along a write -/

namespace Mirrored

variable {N : Network} {s : ServiceStores} {m : ServiceMirrors}

/-- A sighting row and its mirrored sighting. -/
theorem firstSeenRow (h : Mirrored N s m) {id : Hash} (hnew : s.has (.firstSeen id) = false)
    (d : ℕ) (c : ServiceCommitIndex) :
    (m.standing.recordSighting id d).2 = true ∧
      Mirrored N (s.write (.firstSeen id d))
        { m with standing := (m.standing.recordSighting id d).1, commit := c } := by
  have hrec : m.standing.recordSighting id d
      = ({ m.standing with firstSeen := m.standing.firstSeen.insert id d }, true) := by
    rw [StandingIndex.recordSighting, h.firstSeen]
    exact if_neg (by rw [show s.firstSeen.contains id = false from hnew]; exact Bool.false_ne_true)
  rw [hrec]
  exact ⟨rfl, { h with firstSeen := congrArg (fun b => b.insert id d) h.firstSeen }⟩

/-- A strike row newer than all rows of its identity and its mirrored row; a suspension also
sets the deadline. -/
theorem strikeRow (h : Mirrored N s m) {id : Hash}
    (hlt : ∀ r ∈ s.strikeRows id, r.daa < d) (e : StrikeEntry) (c : ServiceCommitIndex) :
    let recorded := m.standing.recordStrike id ⟨d, e.count, e.lastDaa⟩
    recorded.2 = true ∧
      Mirrored N (s.write (.strike d id e))
        { m with
          standing := recorded.1
          suspended := if e.count = 0 ∧ e.lastDaa = d then
              m.suspended.insert id (d + N.finalityDepth + serviceSuspensionDaa)
            else m.suspended
          commit := c } := by
  intro recorded
  have hrecorded : recorded = ({ m.standing with
      history := m.standing.history.insert id (s.strikeRows id ++ [⟨d, e.count, e.lastDaa⟩]) },
      true) :=
    recordStrike_of_lt (h.history id) (sorted_strikeRowsIn s.strike.sorted id) hlt
  rw [hrecorded]
  refine ⟨rfl, { h with history := ?_, history_ne := ?_, suspended := ?_ }⟩
  · intro id'
    rw [strikeRows_write_strike e hlt, get?_insert]
    by_cases hid : id = id'
    · simp [hid]
    · rw [if_neg (Ne.symm hid), if_neg hid]
      exact h.history id'
  · intro id'
    rw [get?_insert]
    split
    · simp
    · exact h.history_ne id'
  · intro id'
    rw [strikeRows_write_strike e hlt]
    by_cases hid : id = id'
    · subst hid
      rw [if_pos rfl, N.deadlineOf_concat]
      simp only [StrikeRow.suspends, decide_eq_true_eq]
      split
      · exact get?_insert_self _ _ _
      · exact h.suspended id
    · split
      · rw [get?_insert_of_ne _ _ (Ne.symm hid)]
        exact h.suspended id'
      · exact h.suspended id'

/-- A reward row and its mirrored win. -/
theorem rewardRow (h : Mirrored N s m) {rh : Hash} (hnew : s.has (.reward rh) = false)
    (e : RewardEntry) (c : ServiceCommitIndex) :
    Mirrored N (s.write (.reward rh e))
      ({ m with rewarded := insert rh m.rewarded, commit := c }.pushReward e.daa
        (rh, e.amount, e.spk)) := by
  refine { h with rewarded := ?_, wins := ?_, wins_ne := ?_ }
  · intro x
    simp only [ServiceMirrors.pushReward, write, Finset.mem_insert, h.rewarded x,
      OrdMap.contains, OrdMap.get?_insert]
    split
    · next hx => simp [hx]
    · next hx => simp [hx]
  · intro d
    have hperm := perm_entries_insert e (contains_eq_false.mp hnew)
    have hwins : (winsIn (s.write (.reward rh e)).reward.entries d).Perm
        (winsIn ((rh, e) :: s.reward.entries) d) :=
      (hperm.filter _).map _
    refine List.Perm.trans ?_ hwins.symm
    have hold := h.wins d
    simp only [ServiceMirrors.winsAt, ServiceMirrors.pushReward, get?_insert] at hold ⊢
    by_cases hd : d = e.daa
    · subst hd
      simp only [winsIn, filter_cons]
      exact (perm_append_singleton _ _).trans (hold.cons _)
    · simpa [hd, winsIn, Ne.symm hd] using hold
  · intro d
    simp only [ServiceMirrors.pushReward, get?_insert]
    split
    · simp
    · exact h.wins_ne d

end Mirrored

/-! ### The rows of a block -/

/-- The rows one event of a block writes. A reset of an identity the block also strikes writes
none: the log has one row per identity and score, and misses go first. -/
def ServiceEvent.writes (daa : ℕ) (missed : List Hash) : ServiceEvent → List StoreWrite
  | .sighting id => [.firstSeen id daa]
  | .miss m => m.burned.map (fun c => .burn c.outpoint daa) ++
      [.strike daa m.miner (FlushState.missRecord daa m)]
  | .reset id preserved => if id ∈ missed then [] else [.strike daa id ⟨0, preserved⟩]
  | .reward r => [.reward r.requestHash ⟨r.winner, r.amount, daa, r.spk⟩]

/-- The identities a block strikes. -/
def FoldOutcome.missed (o : FoldOutcome) : List Hash :=
  o.misses.map ServiceMiss.miner

/-- The rows the events of a block write. -/
def FoldOutcome.writes (o : FoldOutcome) (daa : ℕ) : List StoreWrite :=
  o.events.flatMap (ServiceEvent.writes daa o.missed)

/-- What the fold owes the log for boot to read a row back: a strike counts, a reset carries
an older score than its own, and a struck identity has its row before its reset comes. -/
def ServiceEvent.Sound (s : ServiceStores) (daa : ℕ) (missed : List Hash) : ServiceEvent → Prop
  | .miss m => m.penalty ≠ .suspend → 0 < m.consecutiveMisses
  | .reset id preserved =>
    if id ∈ missed then s.has (.strike daa id) = true else preserved ≠ daa
  | _ => True

/-- Every row an event of score `daa` writes has that score. -/
theorem ServiceEvent.daa_of_mem_writes {daa : ℕ} {missed : List Hash} {e : ServiceEvent}
    (h : w ∈ e.writes daa missed) : w.daa = daa := by
  cases e with
  | sighting id =>
    rw [mem_singleton.mp h]
    rfl
  | miss m =>
    rcases mem_append.mp h with h | h
    · obtain ⟨c, -, rfl⟩ := mem_map.mp h
      rfl
    · rw [mem_singleton.mp h]
      rfl
  | reset id preserved =>
    rw [writes] at h
    split at h
    · cases h
    · rw [mem_singleton.mp h]
      rfl
  | reward r =>
    rw [mem_singleton.mp h]
    rfl

/-- An event writes a row, unless it is a reset that comes after the row of a miss. -/
theorem ServiceEvent.Sound.occupied {s : ServiceStores} {daa : ℕ} {missed : List Hash}
    {e : ServiceEvent} (h : e.Sound s daa missed) :
    ∃ w, (w ∈ e.writes daa missed ∨ w ∈ s.rows) ∧ w.daa = daa := by
  cases e with
  | sighting id => exact ⟨_, .inl (mem_singleton_self _), rfl⟩
  | miss m => exact ⟨_, .inl (mem_append_right _ (mem_singleton_self _)), rfl⟩
  | reset id preserved =>
    rw [writes]
    rw [ServiceEvent.Sound] at h
    split_ifs at h ⊢
    · obtain ⟨r, hr, rfl⟩ := has_strike_iff.mp h
      obtain ⟨e, he⟩ := mem_rows_of_mem_strikeRows hr
      exact ⟨_, .inr he, rfl⟩
    · exact ⟨_, .inl (mem_singleton_self _), rfl⟩
  | reward r => exact ⟨_, .inl (mem_singleton_self _), rfl⟩

/-! ### One event -/

/-- The flush in the middle of score `t`: the mirrors are those of the stores, the commitment
is open at `t`. -/
structure Midway (N : Network) (t : ℕ) (s : FlushState) : Prop where
  sealing : s.sealingDaa = some t
  mirrored : Mirrored N s.stores s.mirrors
  sealed : ServiceCommitIndex.SealedTo N.finalize s.stores.sealable (some t) s.mirrors.commit

/-- A fresh row is one more row of the commitment. -/
theorem ServiceStores.sealable_write {s : ServiceStores} (h : s.has w.key = false) :
    (s.write w).sealable = (w.daa, w.rowBytes) ::ₘ s.sealable := by
  rw [sealable, sealable, Multiset.cons_coe, Multiset.coe_eq_coe]
  exact (Fresh.perm_rows_write h).map _

namespace Midway

variable {N : Network} {t : ℕ} {s : FlushState}

/-- The commitment follows a fresh row of the open score. -/
theorem sealed_write (h : Midway N t s) (hw : w.daa = t) (hnew : s.stores.has w.key = false) :
    ServiceCommitIndex.SealedTo N.finalize (s.stores.write w).sealable (some t)
      (s.mirrors.commit.addRow w.rowBytes) := by
  rw [sealable_write hnew, hw]
  exact h.sealed.addRow w.rowBytes

/-- Burning a claim that is not burned. -/
theorem burnClaim (h : Midway N t s) {c : EscrowClaim}
    (hnew : s.stores.has (.burn c.outpoint) = false) :
    Midway N t (s.burnClaim t c) ∧
      (s.burnClaim t c).stores = s.stores.write (.burn c.outpoint t) ∧
      (s.burnClaim t c).deepCursorDaa = s.deepCursorDaa := by
  have hmirror : s.mirrors.burned.contains c.outpoint = false := by
    rw [h.mirrored.burned]
    exact hnew
  simp only [FlushState.burnClaim, hmirror]
  exact ⟨⟨h.sealing,
    { h.mirrored with burned := congrArg (fun b => b.insert c.outpoint t) h.mirrored.burned },
    h.sealed_write (w := .burn c.outpoint t) rfl hnew⟩, rfl, rfl⟩

/-- Burning the claims of a miss. -/
theorem burnClaims (claims : List EscrowClaim) {s : FlushState} (h : Midway N t s)
    (hfresh : s.stores.Fresh (claims.map fun c => .burn c.outpoint t)) :
    let burned := claims.foldl (FlushState.burnClaim t) s
    Midway N t burned ∧
      burned.stores = s.stores.writeAll (claims.map fun c => .burn c.outpoint t) ∧
      burned.deepCursorDaa = s.deepCursorDaa := by
  induction claims generalizing s with
  | nil => exact ⟨h, rfl, rfl⟩
  | cons c claims ih =>
    obtain ⟨hmid, hstores, hcursor⟩ := h.burnClaim (hfresh.new _ mem_cons_self)
    obtain ⟨hmid', hstores', hcursor'⟩ := ih hmid
      (hstores ▸ @ServiceStores.Fresh.right _ [_] _ hfresh)
    refine ⟨hmid', ?_, hcursor'.trans hcursor⟩
    rw [foldl_cons, hstores', hstores]
    rfl

/-- Logging a row newer than all rows of its identity, with the deadline of a suspension. -/
theorem logStrike (h : Midway N t s) {id : Hash} (hlt : ∀ r ∈ s.stores.strikeRows id, r.daa < t)
    (e : StrikeEntry) :
    let logged := s.logStrike t id e
    Midway N t { logged with mirrors := { logged.mirrors with
        suspended := if e.count = 0 ∧ e.lastDaa = t then
            logged.mirrors.suspended.insert id (t + N.finalityDepth + serviceSuspensionDaa)
          else logged.mirrors.suspended } } ∧
      logged.stores = s.stores.write (.strike t id e) ∧
      logged.deepCursorDaa = s.deepCursorDaa := by
  have hnew : s.stores.has (.strike t id) = false := by
    rw [Bool.eq_false_iff, ne_eq, has_strike_iff]
    rintro ⟨r, hr, rfl⟩
    exact lt_irrefl _ (hlt r hr)
  obtain ⟨hrecorded, hmirrored⟩ := h.mirrored.strikeRow hlt e
    (s.mirrors.commit.addRow (strike t id e).rowBytes)
  simp only [FlushState.logStrike, hrecorded]
  exact ⟨⟨h.sealing, hmirrored, h.sealed_write (w := .strike t id e) rfl hnew⟩, rfl, rfl⟩

/-- **One event** whose rows are fresh writes them and stays midway. -/
theorem flushEvent (h : Midway N t s) (hle : ∀ w ∈ s.stores.rows, w.daa ≤ t)
    {missed : List Hash} {e : ServiceEvent} (hfresh : s.stores.Fresh (e.writes t missed))
    (hsound : e.Sound s.stores t missed) :
    Midway N t (s.flushEvent N t e) ∧
      (s.flushEvent N t e).stores = s.stores.writeAll (e.writes t missed) ∧
      (s.flushEvent N t e).deepCursorDaa = s.deepCursorDaa := by
  -- Rows of the current score are excluded by freshness, so all others are older.
  have hlt : ∀ {s : FlushState} {id : Hash}, (∀ w ∈ s.stores.rows, w.daa ≤ t) →
      s.stores.has (.strike t id) = false → ∀ r ∈ s.stores.strikeRows id, r.daa < t := by
    intro s id hle hnew r hr
    refine lt_of_le_of_ne (daa_le_of_mem_strikeRows hle hr) fun heq => ?_
    rw [has_strike_iff.mpr ⟨r, hr, heq⟩] at hnew
    cases hnew
  cases e with
  | sighting id =>
    have hnew := hfresh.new _ (mem_singleton_self _)
    obtain ⟨hrecorded, hmirrored⟩ := h.mirrored.firstSeenRow hnew t
      (s.mirrors.commit.addRow (firstSeen id t).rowBytes)
    simp only [FlushState.flushEvent, FlushState.flushSighting, hrecorded]
    exact ⟨⟨h.sealing, hmirrored, h.sealed_write (w := .firstSeen id t) rfl hnew⟩, rfl, rfl⟩
  | miss m =>
    obtain ⟨hmid, hstores, hcursor⟩ := h.burnClaims m.burned hfresh.left
    set burned := m.burned.foldl (FlushState.burnClaim t) s
    have hrows : ∀ w ∈ burned.stores.rows, w.daa ≤ t := by
      rw [hstores]
      exact hfresh.left.daa_le (forall_mem_map.mpr fun _ _ => le_rfl) hle
    have hnew : burned.stores.has (.strike t m.miner) = false := by
      rw [hstores]
      exact hfresh.right.new _ (mem_singleton_self _)
    obtain ⟨hlogged, hstores', hcursor'⟩ := hmid.logStrike (hlt hrows hnew)
      (FlushState.missRecord t m)
    have hsuspends : (FlushState.missRecord t m).count = 0 ∧
        (FlushState.missRecord t m).lastDaa = t ↔ m.penalty = .suspend := by
      rw [FlushState.missRecord]
      split
      · next hpenalty => exact iff_of_true ⟨rfl, rfl⟩ hpenalty
      · next hpenalty => exact iff_of_false (fun h0 => (hsound hpenalty).ne' h0.1) hpenalty
    have hwrites : s.stores.writeAll ((miss m).writes t missed)
        = burned.stores.write (.strike t m.miner (FlushState.missRecord t m)) := by
      rw [writes, writeAll_append, ← hstores]
      rfl
    rw [hwrites]
    simp only [FlushState.flushEvent, FlushState.flushMiss]
    simp only [hsuspends] at hlogged
    split_ifs at hlogged ⊢
    · exact ⟨hlogged, hstores', hcursor'.trans hcursor⟩
    · exact ⟨hlogged, hstores', hcursor'.trans hcursor⟩
  | reset id preserved =>
    simp only [ServiceEvent.Sound] at hsound
    simp only [writes] at hfresh ⊢
    by_cases hmissed : id ∈ missed
    · simp only [if_pos hmissed] at hsound ⊢
      -- The row of the miss stands, the reset is skipped.
      obtain ⟨r, hr, hdaa⟩ := has_strike_iff.mp hsound
      have hskip : s.mirrors.standing.recordStrike id ⟨t, 0, preserved⟩
          = (s.mirrors.standing, false) := by
        rw [StandingIndex.recordStrike, h.mirrored.history]
        exact if_pos (any_eq_true.mpr ⟨r, hr, decide_eq_true hdaa⟩)
      have hsame : s.flushEvent N t (.reset id preserved) = s := by
        simp only [FlushState.flushEvent, FlushState.logStrike, hskip, Bool.false_eq_true, if_false]
      rw [hsame]
      exact ⟨h, rfl, rfl⟩
    · simp only [if_neg hmissed] at hsound hfresh ⊢
      have hnew := hfresh.new _ (mem_singleton_self _)
      obtain ⟨hlogged, hrest⟩ := h.logStrike (hlt hle hnew) ⟨0, preserved⟩
      rw [if_neg fun h0 => hsound h0.2] at hlogged
      exact ⟨hlogged, hrest⟩
  | reward r =>
    have hnew := hfresh.new _ (mem_singleton_self _)
    have hmem : r.requestHash ∉ s.mirrors.rewarded := by
      rw [h.mirrored.rewarded, Bool.not_eq_true]
      exact hnew
    simp only [FlushState.flushEvent, FlushState.flushReward, if_neg hmem]
    exact ⟨⟨h.sealing, h.mirrored.rewardRow hnew ⟨r.winner, r.amount, t, r.spk⟩ _,
      h.sealed_write (w := .reward r.requestHash ⟨r.winner, r.amount, t, r.spk⟩) rfl hnew⟩,
      rfl, rfl⟩

end Midway

/-! ### Runs of the flush loop -/

/-- The flush state boot would load: mirrors, commitment and frontier are those of the stores,
the commitment up to the score being sealed. -/
structure InStep (N : Network) (s : FlushState) : Prop where
  mirrored : Mirrored N s.stores s.mirrors
  sealed : ServiceCommitIndex.SealedTo N.finalize s.stores.sealable s.sealingDaa s.mirrors.commit
  occupied : ∀ t ∈ s.sealingDaa, ∃ w ∈ s.stores.rows, w.daa = t
  frontier : s.deepCursorDaa = frontierOf s.stores.rows

/-- The rows of a block can follow those of the stores: they are not older, their keys are
free, strikes count and the resets that reach the log carry another score than their own. -/
structure CleanOutcome (s : ServiceStores) (daa : ℕ) (o : FoldOutcome) : Prop where
  later : ∀ w ∈ s.rows, w.daa ≤ daa
  fresh : s.Fresh (o.writes daa)
  counted : ∀ m ∈ o.misses, m.penalty ≠ .suspend → 0 < m.consecutiveMisses
  older : ∀ r ∈ o.resets, r.1 ∉ o.missed → r.2 ≠ daa

namespace InStep

variable {N : Network} {s : FlushState}

/-- A row of the score being sealed is one of the commitment. -/
theorem occupied_sealable (h : InStep N s) {t : ℕ} (ht : t ∈ s.sealingDaa) :
    ∃ r ∈ s.stores.sealable, r.1 = t := by
  obtain ⟨w, hw, rfl⟩ := h.occupied t ht
  exact ⟨_, Multiset.mem_coe.mpr (mem_map_of_mem hw), rfl⟩

/-- Opening a score, not older than any row, closes the previous one. -/
theorem midway (h : InStep N s) {t : ℕ} (hle : ∀ w ∈ s.stores.rows, w.daa ≤ t) :
    Midway N t { s.sealPrevious N t with sealingDaa := some t } := by
  have hle' : ∀ r ∈ s.stores.sealable, r.1 ≤ t := by
    intro r hr
    obtain ⟨w, hw, rfl⟩ := mem_map.mp (Multiset.mem_coe.mp hr)
    exact hle w hw
  have hsealed := h.sealed
  rw [FlushState.sealPrevious]
  cases hs : s.sealingDaa with
  | none =>
    rw [hs] at hsealed
    exact ⟨rfl, h.mirrored, hsealed.open_ hle'⟩
  | some d =>
    rw [hs] at hsealed
    by_cases hd : d = t
    · subst hd
      simp only [if_true]
      exact ⟨rfl, h.mirrored, hsealed⟩
    · simp only [if_neg hd]
      exact ⟨rfl, { h.mirrored with }, (hsealed.close (h.occupied_sealable hs)).open_ hle'⟩

/-- **One round of the flush loop**: an event whose rows are fresh writes exactly those and
keeps the state in step. -/
theorem step (h : InStep N s) {q : QueuedEvent} (hle : ∀ w ∈ s.stores.rows, w.daa ≤ q.daa)
    {missed : List Hash} (hfresh : s.stores.Fresh (q.event.writes q.daa missed))
    (hsound : q.event.Sound s.stores q.daa missed) :
    InStep N (s.step N q) ∧
      (s.step N q).stores = s.stores.writeAll (q.event.writes q.daa missed) := by
  set opened : FlushState := { s.sealPrevious N q.daa with sealingDaa := some q.daa } with hopened
  have hprev : (s.sealPrevious N q.daa).stores = s.stores ∧
      (s.sealPrevious N q.daa).deepCursorDaa = s.deepCursorDaa := by
    rw [FlushState.sealPrevious]
    split
    · exact ⟨rfl, rfl⟩
    · split <;> exact ⟨rfl, rfl⟩
  have hstores₀ : opened.stores = s.stores := hprev.1
  obtain ⟨hmid, hstores, hcursor⟩ := (h.midway hle).flushEvent
    (by rw [hstores₀]; exact hle) (by rw [hstores₀]; exact hfresh)
    (by rw [hstores₀]; exact hsound)
  rw [hstores₀] at hstores
  rw [← hopened] at hmid hcursor
  have hstep : s.step N q = { opened.flushEvent N q.daa q.event with
      deepCursorDaa := max (opened.flushEvent N q.daa q.event).deepCursorDaa q.daa } := rfl
  have hmem : ∀ w, w ∈ (opened.flushEvent N q.daa q.event).stores.rows ↔
      w ∈ q.event.writes q.daa missed ∨ w ∈ s.stores.rows := by
    intro w
    rw [hstores, hfresh.mem_rows]
  obtain ⟨last, hlast, hdaa⟩ := hsound.occupied
  rw [hstep]
  refine ⟨⟨hmid.mirrored, ?_, ?_, ?_⟩, hstores⟩
  · simp only [hmid.sealing]
    exact hmid.sealed
  · intro t ht
    obtain rfl : q.daa = t := Option.mem_unique hmid.sealing ht
    exact ⟨last, (hmem last).mpr hlast, hdaa⟩
  · refine eq_of_forall_ge_iff fun n => ?_
    have hcur : (opened.flushEvent N q.daa q.event).deepCursorDaa = frontierOf s.stores.rows :=
      hcursor.trans (hprev.2.trans h.frontier)
    simp only [hcur, max_le_iff, frontierOf_le_iff, hmem]
    constructor
    · rintro ⟨hold, ht⟩ w (hw | hw)
      · rw [daa_of_mem_writes hw]
        exact ht
      · exact hold w hw
    · intro hall
      exact ⟨fun w hw => hall w (.inr hw), hdaa ▸ hall last hlast⟩

/-- Events of one score whose rows are fresh, flushed in order. -/
theorem foldl_step {t index : ℕ} {missed : List Hash} :
    ∀ (es : List ServiceEvent) {s : FlushState}, InStep N s →
      (∀ w ∈ s.stores.rows, w.daa ≤ t) →
      s.stores.Fresh (es.flatMap (writes t missed)) →
      (∀ e ∈ es, e.Sound s.stores t missed) →
      let flushed := (es.map fun e => (⟨index, t, e⟩ : QueuedEvent)).foldl (FlushState.step N) s
      InStep N flushed ∧
        flushed.stores = s.stores.writeAll (es.flatMap (writes t missed)) ∧
        ∀ w ∈ flushed.stores.rows, w.daa ≤ t
  | [], s, h, hle, _, _ => ⟨h, rfl, hle⟩
  | e :: es, s, h, hle, hfresh, hsound => by
    obtain ⟨hstep, hstores⟩ := h.step (q := ⟨index, t, e⟩) hle hfresh.left
      (hsound e mem_cons_self)
    have hle' : ∀ w ∈ (s.step N ⟨index, t, e⟩).stores.rows, w.daa ≤ t := by
      rw [hstores]
      exact hfresh.left.daa_le (fun w hw => (daa_of_mem_writes hw).le) hle
    have hsound' : ∀ e' ∈ es, e'.Sound (s.step N ⟨index, t, e⟩).stores t missed := by
      intro e' he'
      have hold := hsound e' (mem_cons_of_mem _ he')
      cases e' with
      | reset id preserved =>
        simp only [ServiceEvent.Sound] at hold ⊢
        split_ifs at hold ⊢
        · rw [hstores, has_writeAll, hold, Bool.or_true]
        · exact hold
      | miss m => exact hold
      | sighting id => trivial
      | reward r => trivial
    obtain ⟨hall, hstores', hrows⟩ := foldl_step es hstep hle' (hstores ▸ hfresh.right) hsound'
    refine ⟨hall, ?_, hrows⟩
    rw [map_cons, foldl_cons, hstores', hstores, flatMap_cons, writeAll_append]

/-- **The events of one block** write exactly the block's rows and keep the state in step. -/
theorem flushOutcome (h : InStep N s) {t : ℕ} {o : FoldOutcome}
    (hclean : CleanOutcome s.stores t o) (index : ℕ) :
    InStep N ((o.queued index t).foldl (FlushState.step N) s) ∧
      ((o.queued index t).foldl (FlushState.step N) s).stores = s.stores.writeAll (o.writes t) ∧
      ∀ w ∈ ((o.queued index t).foldl (FlushState.step N) s).stores.rows, w.daa ≤ t := by
  -- Sightings and misses first: once they are flushed, every struck identity has its row.
  set early := o.sightings.map ServiceEvent.sighting ++ o.misses.map ServiceEvent.miss with hearly
  set late := o.resets.map (fun r => ServiceEvent.reset r.1 r.2) ++
    o.rewards.map ServiceEvent.reward with hlate
  have hevents : o.events = early ++ late := by
    simp only [FoldOutcome.events, hearly, hlate, append_assoc]
  have hwrites : o.writes t = early.flatMap (ServiceEvent.writes t o.missed) ++
      late.flatMap (ServiceEvent.writes t o.missed) := by
    rw [FoldOutcome.writes, hevents, flatMap_append]
  have hfresh := hclean.fresh
  rw [hwrites] at hfresh
  obtain ⟨hmid, hstores, hle⟩ := @foldl_step N t index o.missed early s h hclean.later
    hfresh.left (forall_mem_append.mpr
      ⟨forall_mem_map.mpr fun _ _ => trivial, forall_mem_map.mpr hclean.counted⟩)
  have hstruck : ∀ id ∈ o.missed, (s.stores.writeAll
      (early.flatMap (ServiceEvent.writes t o.missed))).has (.strike t id) = true := by
    intro id hid
    obtain ⟨m, hm, rfl⟩ := mem_map.mp hid
    rw [has_writeAll, Bool.or_eq_true, decide_eq_true_eq]
    refine .inl (mem_map.mpr ⟨.strike t m.miner (FlushState.missRecord t m), ?_, rfl⟩)
    refine mem_flatMap.mpr ⟨.miss m, mem_append_right _ (mem_map_of_mem hm), ?_⟩
    exact mem_append_right _ (mem_singleton_self _)
  obtain ⟨hall, hstores', hle'⟩ := @foldl_step N t index o.missed late _ hmid hle
    (hstores ▸ hfresh.right) (forall_mem_append.mpr ⟨forall_mem_map.mpr fun r hr => by
      simp only [ServiceEvent.Sound]
      split
      · next hmissed => rw [hstores]; exact hstruck r.1 hmissed
      · next hmissed => exact hclean.older r hr hmissed, forall_mem_map.mpr fun _ _ => trivial⟩)
  rw [FoldOutcome.queued, hevents, map_append, foldl_append]
  refine ⟨hall, ?_, hle'⟩
  rw [hstores', hstores, hwrites, writeAll_append]

/-- Closing the last score keeps the state in step and seals everything. -/
theorem finish (h : InStep N s) : InStep N (s.finish N) ∧ (s.finish N).sealingDaa = none ∧
    (s.finish N).stores = s.stores := by
  rw [FlushState.finish]
  cases hs : s.sealingDaa with
  | none => exact ⟨h, hs, rfl⟩
  | some t =>
    have hsealed := h.sealed
    rw [hs] at hsealed
    exact ⟨⟨{ h.mirrored with }, hsealed.close (h.occupied_sealable hs),
      fun _ ht => (by cases ht), h.frontier⟩, rfl, rfl⟩

/-- **Boot reloads a state that is in step**: the same mirrors, the same frontier, the same
commitment at every score. -/
theorem reload (h : InStep N s) (hs : s.sealingDaa = none) (pp : Hash) :
    SameMirrors (loadServiceBurned N s.stores pp).1 s.mirrors ∧
      (loadServiceBurned N s.stores pp).2 = s.deepCursorDaa ∧
      ∀ d, (loadServiceBurned N s.stores pp).1.commit.commitmentAt d
        = s.mirrors.commit.commitmentAt d := by
  obtain ⟨hsealed, hcursor⟩ := sealed_loadServiceBurned N s.stores pp
  refine ⟨(mirrored_loadServiceBurned N s.stores pp).same h.mirrored,
    hcursor.trans h.frontier.symm, fun d => ?_⟩
  have hlive := h.sealed
  rw [hs] at hlive
  rw [hsealed.answers d fun _ ht => (by cases ht), hlive.answers d fun _ ht => (by cases ht)]

end InStep

end KeryxNode
