import KeryxNode.LiveCommit

/-!
# The Strike Log and the Fold

The flush logs one row per identity and block, and the baseline of a refold is the last row of
each identity. This module compares the log with the strike states of the fold: after every run
of live commits the last row at or below a flushed score is the record the ledger held there.
It needs one thing of the blocks: that none strikes an identity at the close of one audit and
resets it at the arming of another. There the fold strikes first and resets after, while the log
keeps the first of the two rows.

## Main results

* `strikeLog_agrees`: the log of a live run agrees with the fold, and the baseline read from it
  is the strike state at the frontier.
* `strikeLog_struck_and_served`: an identity struck and served in one block keeps its strike in
  the log.
-/

namespace KeryxNode

open BondBook FoldRecord List ServiceStores OrdMap

variable {recs : List FoldRecord} {N : Network} {node : Node} {id : Hash} {s : ServiceStores}
  {d base j : ℕ}

/-! ### Rows of the log -/

/-- The record a strike row carries. -/
def StrikeRow.entry (r : StrikeRow) : StrikeEntry :=
  ⟨r.count, r.lastDaa⟩

namespace ServiceStores

variable {ws : List StoreWrite}

/-- The record of the last strike row of an identity at or below a score. -/
def lastStrike (s : ServiceStores) (id : Hash) (d : ℕ) : Option StrikeEntry :=
  (((s.strikeRows id).filter fun r => decide (r.daa ≤ d)).getLast?).map StrikeRow.entry

/-- Rows of other identities and other stores leave the log of an identity alone. -/
theorem strikeRows_writeAll_of_not_mem (h : ∀ d e, StoreWrite.strike d id e ∉ ws)
    (s : ServiceStores) :
    (s.writeAll ws).strikeRows id = s.strikeRows id := by
  induction ws generalizing s with
  | nil => rfl
  | cons w ws ih =>
    have hrest := ih (fun d e hmem => h d e (mem_cons_of_mem _ hmem)) (s.write w)
    refine hrest.trans ?_
    cases w with
    | strike d id' e =>
      have hne : id' ≠ id := by
        rintro rfl
        exact h d e mem_cons_self
      rw [strikeRows_eq]
      exact congrArg (fun m : OrdMap (ℕ ×ₗ Hash) StrikeEntry => m.entries.map _)
        (filter_insert_of_neg s.strike e (decide_eq_false hne))
    | _ => rfl

/-- A fresh strike row that no row of the stores exceeds is the last one of its identity. -/
theorem getLast?_strikeRows_writeAll (hfresh : s.Fresh ws)
    (hold : ∀ w ∈ s.rows, w.daa ≤ d) (hnew : ∀ w ∈ ws, w.daa ≤ d) {e : StrikeEntry}
    (hmem : .strike d id e ∈ ws) :
    ((s.writeAll ws).strikeRows id).getLast? = some ⟨d, e.count, e.lastDaa⟩ := by
  have hget : (s.writeAll ws).strike.get? (toLex (d, id)) = some e := by
    have hrow := hfresh.mem_rows.mpr (.inl hmem)
    simp only [rows, mem_append, mem_map, reduceCtorEq, and_false, exists_false,
      or_false, false_or, StoreWrite.strike.injEq] at hrow
    obtain ⟨⟨k, e'⟩, hentry, hd, hid, rfl⟩ := hrow
    rw [get?_eq_some_iff, ← hd, ← hid]
    exact hentry
  exact getLast?_eq_some_of_sorted StrikeRow.daa
    (sorted_strikeRowsIn (s.writeAll ws).strike.sorted id)
    (mem_strikeRows.mpr ⟨e, hget, rfl⟩) fun r hr =>
      daa_le_of_mem_strikeRows (hfresh.daa_le hnew hold) hr

/-- Rows above a score are not read at it. -/
theorem filter_strikeRows_writeAll (h : ∀ w ∈ ws, d < w.daa) (s : ServiceStores) (id : Hash) :
    ((s.writeAll ws).strikeRows id).filter (fun r => decide (r.daa ≤ d))
      = (s.strikeRows id).filter fun r => decide (r.daa ≤ d) := by
  -- The rows of the identity at or below the score, as a part of the log.
  have hpart : ∀ s : ServiceStores, (s.strikeRows id).filter (fun r => decide (r.daa ≤ d))
      = ((s.strike.filter fun k _ => decide ((ofLex k).1 ≤ d)).filter
          fun k _ => decide ((ofLex k).2 = id)).entries.map
          fun e => ⟨(ofLex e.1).1, e.2.count, e.2.lastDaa⟩ := by
    intro s
    rw [strikeRows, strikeRowsIn, filter_map, filter_comm]
    rfl
  induction ws generalizing s with
  | nil => rfl
  | cons w ws ih =>
    have hrest := ih (fun w hw => h w (mem_cons_of_mem _ hw)) (s.write w)
    refine hrest.trans ?_
    cases w with
    | strike d' id' e =>
      have hlt : d < d' := h _ mem_cons_self
      rw [hpart, hpart]
      exact congrArg (fun m : OrdMap (ℕ ×ₗ Hash) StrikeEntry => (m.filter _).entries.map _)
        (filter_insert_of_neg s.strike e (decide_eq_false hlt.not_ge))
    | _ => rfl

/-- The last row of a log all of whose rows are read. -/
theorem lastStrike_of_le (h : ∀ w ∈ s.rows, w.daa ≤ d) (id : Hash) :
    s.lastStrike id d = ((s.strikeRows id).getLast?).map StrikeRow.entry := by
  rw [lastStrike, filter_eq_self.mpr fun r hr =>
    decide_eq_true (daa_le_of_mem_strikeRows h hr)]

/-- The baseline of a refold is the last row of each identity. -/
theorem get?_loadStrikeBase (s : ServiceStores) (id : Hash) :
    (Network.loadStrikeBase s).get? id = ((s.strikeRows id).getLast?).map StrikeRow.entry := by
  rw [Network.loadStrikeBase, get?_foldl_insert_last, get?_empty, Option.or_none,
    strikeRows, strikeRowsIn, getLast?_map, Option.map_map]
  rfl

end ServiceStores

/-- The strike rows of a block: one for each miss, one for each reset that reaches the log. -/
theorem FoldOutcome.strike_mem_writes {o : FoldOutcome} {daa : ℕ} {e : StrikeEntry} :
    .strike d id e ∈ o.writes daa ↔ d = daa ∧
      ((∃ m ∈ o.misses, m.miner = id ∧ e = FlushState.missRecord daa m) ∨
        ∃ r ∈ o.loggedResets, r.1 = id ∧ e = ⟨0, r.2⟩) := by
  rw [writes_eq]
  simp only [mem_append, mem_map, mem_flatMap, mem_singleton, reduceCtorEq,
    and_false, exists_false, or_false, false_or, StoreWrite.strike.injEq]
  constructor
  · rintro (⟨m, hm, rfl, rfl, rfl⟩ | ⟨r, hr, rfl, rfl, rfl⟩)
    · exact ⟨rfl, Or.inl ⟨m, hm, rfl, rfl⟩⟩
    · exact ⟨rfl, Or.inr ⟨r, hr, rfl, rfl⟩⟩
  · rintro ⟨rfl, ⟨m, hm, rfl, rfl⟩ | ⟨r, hr, rfl, rfl⟩⟩
    · exact .inl ⟨m, hm, rfl, rfl, rfl⟩
    · exact .inr ⟨r, hr, rfl, rfl, rfl⟩

/-! ### One block -/

/-- The request side of a record folded on `L`. -/
def FoldRecord.trace (N : Network) (L : ServiceLedger) (r : FoldRecord) : BookTrace :=
  L.toRequestBook.replay N.ledgerConfig (r.call N).input (r.call N).cohort

/-- No record of the stack strikes an identity for one audit while it arms another one that the
identity answered early. -/
def ServedApart (N : Network) : ServiceLedger → List FoldRecord → Prop
  | _, [] => True
  | L, r :: recs =>
    (∀ m ∈ (r.apply N L).outcome.misses, m.miner ∉ (r.trace N L).armCredits) ∧
    ServedApart N (r.apply N L).ledger recs

-- Hashes are a finite type, so the search along the list is named.
instance decidableServedApart (N : Network) :
    ∀ (L : ServiceLedger) (recs : List FoldRecord), Decidable (ServedApart N L recs)
  | _, [] => inferInstanceAs (Decidable True)
  | L, r :: recs =>
    have := decidableServedApart N (r.apply N L).ledger recs
    have : Decidable (∀ m ∈ (r.apply N L).outcome.misses, m.miner ∉ (r.trace N L).armCredits) :=
      decidableBAll _ _
    inferInstanceAs (Decidable (_ ∧ ServedApart N (r.apply N L).ledger recs))

theorem ServedApart.append {L : ServiceLedger} {recs' : List FoldRecord} :
    ServedApart N L (recs ++ recs')
      ↔ ServedApart N L recs ∧ ServedApart N (replay N L recs) recs' := by
  induction recs generalizing L with
  | nil => exact ⟨fun h => ⟨trivial, h⟩, fun h => h.2⟩
  | cons r recs ih =>
    rw [cons_append, ServedApart, ServedApart, ih, and_assoc]
    rfl

/-- The log of the stores ends, identity by identity, in the strike states of the ledger. -/
def Recorded (s : ServiceStores) (L : ServiceLedger) : Prop :=
  ∀ id, ((s.strikeRows id).getLast?).map StrikeRow.entry = L.strikeState id

/-- The rows of a settled block leave its strike states in the log. -/
theorem Recorded.settle {daa : ℕ} {before after : BondBook} {t : BookTrace}
    {o : FoldOutcome} (h : ∀ id, ((s.strikeRows id).getLast?).map StrikeRow.entry
      = before.strikeState id)
    (hclean : CleanOutcome s daa o) (hsettle : Settled daa before t after o.misses o.resets)
    (hapart : ∀ m ∈ o.misses, m.miner ∉ t.armCredits) (id : Hash) :
    (((s.writeAll (o.writes daa)).strikeRows id).getLast?).map StrikeRow.entry
      = after.strikeState id := by
  have hscore : ∀ w ∈ o.writes daa, w.daa ≤ daa := by
    intro w hw
    obtain ⟨e, -, he⟩ := mem_flatMap.mp hw
    exact (ServiceEvent.daa_of_mem_writes he).le
  have hlast : ∀ e, StoreWrite.strike daa id e ∈ o.writes daa →
      (((s.writeAll (o.writes daa)).strikeRows id).getLast?).map StrikeRow.entry = some e := by
    intro e he
    rw [getLast?_strikeRows_writeAll hclean.fresh hclean.later hscore he]
    rfl
  by_cases hmissed : id ∈ o.missed
  · -- A struck identity is not reset afterwards.
    obtain ⟨m, hm, rfl⟩ := mem_map.mp hmissed
    rw [hsettle.missRecord m hm (hapart m hm)]
    exact hlast _ (FoldOutcome.strike_mem_writes.mpr ⟨rfl, Or.inl ⟨m, hm, rfl, rfl⟩⟩)
  · by_cases hreset : id ∈ o.resets.map Prod.fst
    · obtain ⟨r, hr, rfl⟩ := mem_map.mp hreset
      rw [(hsettle.reset.record r hr hmissed).1]
      have hlogged : r ∈ o.loggedResets := mem_filter.mpr ⟨hr, decide_eq_true hmissed⟩
      exact hlast _ (FoldOutcome.strike_mem_writes.mpr ⟨rfl, Or.inr ⟨r, hlogged, rfl, rfl⟩⟩)
    · rw [hsettle.reset.frame id hmissed hreset, ← h id, strikeRows_writeAll_of_not_mem]
      intro d e hmem
      obtain ⟨-, ⟨m, hm, hid, -⟩ | ⟨r, hr, hid, -⟩⟩ := FoldOutcome.strike_mem_writes.mp hmem
      · exact hmissed (mem_map.mpr ⟨m, hm, hid⟩)
      · exact hreset (mem_map.mpr ⟨r, (mem_filter.mp hr).1, hid⟩)

/-! ### A stack -/

namespace StackFacts

variable {N : Network} {recs : List FoldRecord} {r : FoldRecord}

/-- **One record** on top of a recorded stack. -/
theorem recorded_step (h : StackFacts N (recs ++ [r]))
    (hrec : Recorded (({} : ServiceStores).writeAll (writes N {} recs))
      (replay N {} recs))
    (hapart : ServedApart N (replay N {} recs) [r]) :
    Recorded (({} : ServiceStores).writeAll (writes N {} (recs ++ [r])))
      (replay N {} (recs ++ [r])) := by
  have hclean := h.clean
  have hmem : r ∈ recs ++ [r] := mem_append_right _ (mem_singleton_self r)
  rw [writes_append, writeAll_append, replay_append,
    writes, writes, append_nil,
    show replay N (replay N {} recs) [r]
      = (r.apply N (replay N {} recs)).ledger from rfl]
  by_cases hactive : N.daaOf r.hash < N.pomV3Activation
  · rw [apply_of_inactive hactive]
    exact hrec
  · obtain ⟨t, hbound, hacc⟩ := (h.sublist (sublist_append_left _ _)).accounted
    have ht : t ≤ N.daaOf r.hash := hbound _ fun x hx =>
      (pairwise_append.mp h.increasing).2.2 x hx r (mem_singleton_self r)
    have hsettle := (hacc.configure N.ledgerConfig).settled (r.call N) ht (h.positive r hmem)
    have hmisses := hapart.1
    rw [apply_of_normal (not_lt.mp hactive) (h.normal r hmem)] at hclean hmisses ⊢
    intro id
    refine Recorded.settle (fun id => (hrec id).trans ?_) hclean hsettle hmisses id
    -- Opening the block strikes nobody.
    exact ((openBlock_sightings _ _ _).2.2.2 id).symm

/-- **The log of a stack ends in its strike states.** -/
theorem recorded (h : StackFacts N recs) (hapart : ServedApart N {} recs) :
    Recorded (({} : ServiceStores).writeAll (writes N {} recs))
      (replay N {} recs) := by
  induction recs using reverseRecOn with
  | nil => exact fun _ => rfl
  | append_singleton recs r ih =>
    obtain ⟨hbelow, htop⟩ := ServedApart.append.mp hapart
    exact h.recorded_step (ih (h.sublist (sublist_append_left _ _)) hbelow) htop

/-- The log of a stack, read at any score, is the strike state of its records up to it. -/
theorem lastStrike_eq (h : StackFacts N recs) (hapart : ServedApart N {} recs) (id : Hash) (d : ℕ) :
    (({} : ServiceStores).writeAll (writes N {} recs)).lastStrike id d
      = (replay N {} (recs.filter fun r =>
          decide (N.daaOf r.hash ≤ d))).strikeState id := by
  have hsplit := (filter_le_append_filter_lt h.increasing d).symm
  set low := recs.filter fun r => decide (N.daaOf r.hash ≤ d) with hlow
  have hfacts : StackFacts N low := h.sublist filter_sublist
  have hrec := hfacts.recorded (ServedApart.append.mp (hsplit ▸ hapart)).1
  obtain ⟨t, hbound, hacc⟩ := hfacts.accounted
  have ht : t ≤ d + 1 := hbound (d + 1) fun r hr =>
    Nat.lt_succ_of_le (of_decide_eq_true (mem_filter.mp hr).2)
  rw [hsplit, writes_append, writeAll_append, lastStrike, filter_strikeRows_writeAll, ← lastStrike,
    lastStrike_of_le]
  · exact hrec id
  · exact fun w hw => Nat.le_of_lt_succ ((hacc.later w hw).trans_le ht)
  · intro w hw
    obtain ⟨r, hr, hdaa⟩ := exists_of_mem_writes N hw
    rw [hdaa]
    exact of_decide_eq_true (mem_filter.mp hr).2

end StackFacts

/-! ### A node -/

/-- The log of a live node is that of the flushed part of its stack. -/
theorem Synced.strikeRows (h : Synced N base node recs j) (id : Hash) :
    node.stores.strikeRows id
      = (({} : ServiceStores).writeAll (writes N {} (recs.take j))).strikeRows id :=
  (show node.stores.strikeRows id = node.stores.rowsOnly.strikeRows id from rfl).trans
    (congrArg (fun s : ServiceStores => s.strikeRows id) h.rows)

/-- Blocks whose events still wait are above the frontier. -/
theorem Lived.cursor_lt (h : Lived N base node recs j) {r : FoldRecord} (hr : r ∈ recs.drop j) :
    node.sync.deepCursorDaa < N.daaOf r.hash := by
  have hincr := h.facts.increasing
  rw [← take_append_drop j recs] at hincr
  have hpos := h.facts.positive r (mem_of_mem_drop hr)
  have hle : node.sync.deepCursorDaa ≤ N.daaOf r.hash - 1 := h.cursor_le fun x hx =>
    Nat.le_sub_one_of_lt ((pairwise_append.mp hincr).2.2 x hx r hr)
  omega

/-- **The log of a live node**, read at a score up to its frontier, is the strike state of its
chain there. -/
theorem Lived.lastStrike_eq (h : Lived N base node recs j)
    (hapart : ServedApart N {} recs) (id : Hash) (hd : d ≤ node.sync.deepCursorDaa) :
    node.stores.lastStrike id d
      = (replay N {} (recs.filter fun r =>
          decide (N.daaOf r.hash ≤ d))).strikeState id := by
  have hflushed := h.facts.sublist (take_sublist j recs)
  rw [← take_append_drop j recs] at hapart
  have hwaiting : (recs.drop j).filter (fun r => decide (N.daaOf r.hash ≤ d)) = [] :=
    filter_eq_nil_iff.mpr fun r hr => by
      have := h.cursor_lt hr
      simp only [decide_eq_true_eq]
      omega
  have hfilter : recs.filter (fun r => decide (N.daaOf r.hash ≤ d))
      = (recs.take j).filter fun r => decide (N.daaOf r.hash ≤ d) := by
    conv_lhs => rw [← take_append_drop j recs]
    rw [filter_append, hwaiting, append_nil]
  rw [hfilter, ← hflushed.lastStrike_eq (ServedApart.append.mp hapart).1, lastStrike,
    h.strikeRows id]
  rfl

/-- **The strike log agrees with the fold**: after every run of live commits of a node that
started with nothing folded, if no block of the chain strikes an identity at the close of one
audit and credits it at the arming of another, the last row of an identity at or below a flushed
score is the strike state the fold of the chain up to that score holds, none if it holds none;
and the refold baseline is the strike state at the frontier. -/
theorem strikeLog_agrees {N : Network} {start : Node} {steps : List ChainStep}
    (hstart : Dormant N start) (hrun : LiveRun N start steps)
    (hapart : ∀ s ∈ commitAllLogged N (start, []) steps, ServedApart N {} s.2) :
    ∃ node recs, commitAllLogged N (start, []) steps = some (node, recs) ∧
      SameBooks node.sync.ledger (FoldRecord.replay N {} recs) ∧
      (∀ id d, d ≤ node.sync.deepCursorDaa → node.stores.lastStrike id d
        = (FoldRecord.replay N {} (recs.filter fun r =>
            decide (N.daaOf r.hash ≤ d))).strikeState id) ∧
      ∀ id, (Network.loadStrikeBase node.stores).get? id
        = (FoldRecord.replay N {} (recs.filter fun r =>
            decide (N.daaOf r.hash ≤ node.sync.deepCursorDaa))).strikeState id := by
  obtain ⟨node, recs, hall, halive⟩ := LiveRun.alive steps (.inl ⟨hstart, rfl⟩) hrun
  refine ⟨node, recs, hall, ?_⟩
  rcases halive with ⟨hdormant, rfl⟩ | ⟨base, j, hlived⟩
  · rw [hdormant.stores, hdormant.sync]
    exact ⟨.refl _, fun _ _ _ => rfl, fun _ => rfl⟩
  · have hlast := fun id d => hlived.lastStrike_eq (hapart _ hall) id (d := d)
    refine ⟨hlived.logged.ledger, hlast, fun id => ?_⟩
    have hfrontier : node.sync.deepCursorDaa = frontierOf node.stores.rows :=
      hlived.inStep.frontier
    rw [← hlast id _ le_rfl, get?_loadStrikeBase, lastStrike_of_le]
    exact frontierOf_le_iff.mp hfrontier.ge

/-- A chain that replaced block 4 by block 6 has logged the strike of block 6. -/
theorem strikeLog_agrees_reorg :
    ∃ node recs, commitAllLogged auditNetwork (genesisNode, [])
        [{ path := { added := [1, 2, 3] } }, { path := { added := [4] } },
          { path := { removed := [4], added := [6] } }, { path := { added := [7] } }]
        = some (node, recs) ∧
      SameBooks node.sync.ledger (FoldRecord.replay auditNetwork {} recs) ∧
      (∀ id d, d ≤ node.sync.deepCursorDaa → node.stores.lastStrike id d
        = (FoldRecord.replay auditNetwork {} (recs.filter fun r =>
            decide (auditNetwork.daaOf r.hash ≤ d))).strikeState id) ∧
      ∀ id, (Network.loadStrikeBase node.stores).get? id
        = (FoldRecord.replay auditNetwork {} (recs.filter fun r =>
            decide (auditNetwork.daaOf r.hash ≤ node.sync.deepCursorDaa))).strikeState id :=
  strikeLog_agrees ⟨rfl, rfl, rfl, fun _ h => (by cases h)⟩ (by decide +kernel) (by decide +kernel)

/-! ### Struck and served in one block -/

/-- As in `auditNetwork`, but block 3 accepts a second request, and an answer to it by the key of
producer 7. Block 4 closes the first audit, on which the producer is silent, and arms the second,
which it has answered. Block 5 makes it final. -/
def servedNetwork : Network :=
  .ofBlocks testnetParams
    [(0, { emptyBlock 0 0 with selectedParent := none }),
      (1, { emptyBlock 1 0 with accepted := [.request 9 9 (some 0) 0 0] }), (2, claimBlock 2 1),
      (3, { claimBlock 3000 2 with
        blueScore := 3
        coinbaseId := 1001
        accepted := [.request 10 10 (some 0) 0 0, .response 10 (some 50)] }),
      (4, { emptyBlock 3003 3 with blueScore := 4 }),
      (5, { emptyBlock 5003 4 with blueScore := 5 })]

/-- **The log keeps the strike**: once block 4 is folded the streak of producer 7 is back to zero,
but the row of its miss is flushed first, and the row of the reset is skipped. -/
theorem strikeLog_struck_and_served :
    (genesisNode.commitAll servedNetwork [{ path := { added := [1, 2, 3] } },
        { path := { added := [4] } }]).map (fun node => node.sync.ledger.strikeState 7)
        = some (some ⟨0, 3003⟩) ∧
      (genesisNode.commitAll servedNetwork [{ path := { added := [1, 2, 3] } },
        { path := { added := [4] } }, { path := { added := [5] } }]).map
        (fun node => (node.sync.deepCursorDaa, node.stores.lastStrike 7 3003,
          (Network.loadStrikeBase node.stores).get? 7))
        = some (3003, some ⟨1, 3003⟩, some ⟨1, 3003⟩) := by
  decide +kernel

end KeryxNode
