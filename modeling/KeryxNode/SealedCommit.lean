import KeryxNode.ServiceStores

/-!
# The Sealed Commitment of the Rows

The commitment index accumulates rows in score order and seals the accumulator after the last
row of each score. What a validator reads of it is a function of the row *set*: the digest of
all rows at or below the score asked for, the zero hash if there is none (`commitmentOf`).
The invariant `SealedTo` says so of an index in the middle of a score, and three rules carry
it through every way rows come in: open a score, add a row, close the score.
-/

namespace KeryxNode

open List Multiset

namespace ServiceCommitIndex

variable {finalize : Multiset (List UInt8) → Hash}

/-- The commitment of a row set as of `d`: the digest of its rows at or below `d`. -/
def commitmentOf (finalize : Multiset (List UInt8) → Hash) (rows : Multiset (ℕ × List UInt8))
    (d : ℕ) : Hash :=
  let below := rows.filter fun r => r.1 ≤ d
  if below = 0 then zeroHash else finalize (below.map Prod.snd)

/-- The index holds the given rows and answers for them at every score below the one being
sealed, at every score if none is. -/
structure SealedTo (finalize : Multiset (List UInt8) → Hash) (rows : Multiset (ℕ × List UInt8))
    (sealing : Option ℕ) (x : ServiceCommitIndex) : Prop where
  acc : x.acc = rows.map Prod.snd
  keys : ∀ e ∈ x.snapshots.entries, ∃ r ∈ rows, r.1 = e.1
  bounded : ∀ t ∈ sealing, ∀ r ∈ rows, r.1 ≤ t
  answers : ∀ d, (∀ t ∈ sealing, d < t) → x.commitmentAt d = commitmentOf finalize rows d

/-- Sealing at or past the highest sealed score changes the answers from there on. -/
theorem commitmentAt_sealAt {x : ServiceCommitIndex} {t : ℕ}
    (h : ∀ e ∈ x.snapshots.entries, e.1 ≤ t) (d : ℕ) :
    (x.sealAt finalize t).commitmentAt d = if t ≤ d then finalize x.acc else x.commitmentAt d := by
  simp only [commitmentAt, sealAt, OrdMap.entries_insert_of_le _ h]
  split
  · next htd => simp [htd]
  · next htd =>
    have hlow : (x.snapshots.entries.filter fun e => decide (e.1 ≤ d) && decide (e.1 < t))
        = x.snapshots.entries.filter fun e => decide (e.1 ≤ d) := by
      refine filter_congr fun e _ => ?_
      rw [Bool.and_eq_left_iff_imp]
      intro he
      have := of_decide_eq_true he
      exact decide_eq_true (by omega)
    simp [htd, hlow]

namespace SealedTo

variable {rows : Multiset (ℕ × List UInt8)} {x : ServiceCommitIndex} {t : ℕ}

theorem empty : SealedTo finalize 0 none {} :=
  ⟨rfl, fun _ he => (by cases he), fun _ ht => (by cases ht), fun _ _ => rfl⟩

/-- Opens a score at or past every row. -/
theorem open_ (h : SealedTo finalize rows none x) (ht : ∀ r ∈ rows, r.1 ≤ t) :
    SealedTo finalize rows (some t) x where
  acc := h.acc
  keys := h.keys
  bounded t' ht' := by
    obtain rfl : t = t' := Option.some.inj ht'
    exact ht
  answers d _ := h.answers d fun _ ht' => (by cases ht')

/-- Adds a row of the open score. -/
theorem addRow (h : SealedTo finalize rows (some t) x) (row : List UInt8) :
    SealedTo finalize ((t, row) ::ₘ rows) (some t) (x.addRow row) where
  acc := by rw [ServiceCommitIndex.addRow, h.acc, Multiset.map_cons]
  keys e he := by
    obtain ⟨r, hr, heq⟩ := h.keys e he
    exact ⟨r, mem_cons_of_mem hr, heq⟩
  bounded t' ht' r hr := by
    obtain rfl : t = t' := Option.some.inj ht'
    rcases mem_cons.mp hr with rfl | hr
    · exact le_refl _
    · exact h.bounded t rfl r hr
  answers d hd := by
    have hlt : ¬ t ≤ d := not_le.mpr (hd t rfl)
    have hsame : commitmentOf finalize ((t, row) ::ₘ rows) d = commitmentOf finalize rows d := by
      have hbelow : ((t, row) ::ₘ rows).filter (fun r => r.1 ≤ d)
          = rows.filter fun r => r.1 ≤ d := filter_cons_of_neg rows hlt
      simp only [commitmentOf, hbelow]
    rw [hsame]
    exact h.answers d hd

/-- Closes the open score, once it has a row. -/
theorem close (h : SealedTo finalize rows (some t) x) (ht : ∃ r ∈ rows, r.1 = t) :
    SealedTo finalize rows none (x.sealAt finalize t) where
  acc := h.acc
  keys e he := by
    rcases OrdMap.mem_entries_insert.mp he with rfl | ⟨-, he⟩
    · exact ht
    · exact h.keys e he
  bounded _ ht' := by cases ht'
  answers d _ := by
    have hkeys : ∀ e ∈ x.snapshots.entries, e.1 ≤ t := fun e he => by
      obtain ⟨r, hr, heq⟩ := h.keys e he
      exact heq ▸ h.bounded t rfl r hr
    rw [commitmentAt_sealAt hkeys]
    split
    · next htd =>
      -- Every row is at or below `t`, so all of them count.
      have hall : rows.filter (fun r => r.1 ≤ d) = rows :=
        filter_eq_self.mpr fun r hr => (h.bounded t rfl r hr).trans htd
      have hne : rows ≠ 0 := by
        obtain ⟨r, hr, -⟩ := ht
        exact fun h0 => notMem_zero r (h0 ▸ hr)
      rw [commitmentOf]
      simp only [hall, if_neg hne, h.acc]
    · next htd =>
      refine h.answers d fun t' ht' => ?_
      obtain rfl : t = t' := Option.some.inj ht'
      omega

/-- Rows added in score order leave a sealed index. The first score of the list may be open
already. -/
theorem sealRows : ∀ (l : List (ℕ × List UInt8)) {rows : Multiset (ℕ × List UInt8)}
    {x : ServiceCommitIndex} {sealing : Option ℕ}, l.Pairwise (fun a b => a.1 ≤ b.1) →
    (∀ r ∈ rows, ∀ a ∈ l, r.1 ≤ a.1) →
    (sealing = none ∨ ∃ a, l.head? = some a ∧ sealing = some a.1) →
    SealedTo finalize rows sealing x →
    SealedTo finalize (rows + (l : Multiset (ℕ × List UInt8))) none
      (ServiceCommitIndex.sealRows finalize x l)
  | [], rows, x, sealing, _, _, hopen, h => by
    obtain rfl : sealing = none := by
      rcases hopen with h | ⟨a, ha, -⟩
      · exact h
      · cases ha
    rw [Multiset.coe_nil, Multiset.add_zero]
    exact h
  | (t, row) :: rest, rows, x, sealing, hsorted, hle, hopen, h => by
    obtain ⟨hhead, htail⟩ := pairwise_cons.mp hsorted
    have hopened : SealedTo finalize rows (some t) x := by
      rcases hopen with rfl | ⟨a, ha, rfl⟩
      · exact h.open_ fun r hr => hle r hr _ mem_cons_self
      · obtain rfl : (t, row) = a := Option.some.inj ha
        exact h
    have hadded := hopened.addRow row
    have hle' : ∀ r ∈ (t, row) ::ₘ rows, ∀ a ∈ rest, r.1 ≤ a.1 := by
      intro r hr a ha
      rcases mem_cons.mp hr with rfl | hr
      · exact hhead a ha
      · exact hle r hr a (mem_cons_of_mem _ ha)
    have hrows : rows + (((t, row) :: rest : List _) : Multiset (ℕ × List UInt8))
        = (t, row) ::ₘ rows + (rest : Multiset (ℕ × List UInt8)) := by
      rw [← cons_coe, add_cons, cons_add]
    rw [hrows]
    simp only [ServiceCommitIndex.sealRows]
    split
    · next hsame =>
      obtain ⟨a, ha, heq⟩ := (Option.any_eq_true _ _).mp hsame
      exact sealRows rest htail hle' (.inr ⟨a, ha, by rw [of_decide_eq_true heq]⟩) hadded
    · exact sealRows rest htail hle' (.inl rfl)
        (hadded.close ⟨_, mem_cons_self _ _, rfl⟩)

/-- **The rebuilt index** commits to its row set. -/
theorem rebuild (l : List (ℕ × List UInt8)) :
    SealedTo finalize (l : Multiset (ℕ × List UInt8)) none
      (ServiceCommitIndex.rebuild finalize l) := by
  have hsorted : (l.insertionSort fun a b => a.1 ≤ b.1).Pairwise fun a b => a.1 ≤ b.1 :=
    pairwise_insertionSort _ l
  have hrows : (l : Multiset (ℕ × List UInt8))
      = 0 + ((l.insertionSort fun a b => a.1 ≤ b.1 : List _) : Multiset (ℕ × List UInt8)) := by
    rw [Multiset.zero_add, Multiset.coe_eq_coe]
    exact (perm_insertionSort _ l).symm
  rw [hrows]
  exact sealRows _ hsorted (fun r hr => (notMem_zero r hr).elim) (.inl rfl) empty

end SealedTo

end ServiceCommitIndex

end KeryxNode
