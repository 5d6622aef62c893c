import Mathlib.Data.Finset.Max
import KeryxNode.ProductionPrefix

/-!
# Maintenance of the Production Index

The two writers of the production index keep it an index of the current chain. A chain change
(`advanceProductionPrefix`) erases exactly the entries above the split and writes the sums of
the new blocks, whatever order the productions of one block come in. A collapse takes, for each
address, an initial part of its entries: keys of one address are visited in index order, so a
budget that runs out in the middle of an address leaves its higher entries in place, and the
floor value never passes an entry that is still there.

## Main results

* `production_prefix_exact`: over every interleaving, differences of reads are brute-force sums.
-/

namespace KeryxNode

open List OrdMap

/-! ### Productions at a chain index -/

section Produced

variable {spk : ScriptPublicKey} {c : ProductionChain} {qs : List (ScriptPublicKey × ℕ)}
  {p : ScriptPublicKey × ℕ} {i : ℕ}

theorem producedAt_iff {l : ProductionChain} :
    ProducedAt spk l i ↔ ∃ p ∈ l[i - 1]?.getD [], p.1 = spk := by
  rw [ProducedAt]
  cases l[i - 1]? <;> simp

theorem ProducedAt.le_length (h : ProducedAt spk c i) (hi : 0 < i) : i ≤ c.length := by
  obtain ⟨ps, hps, -⟩ := h
  have := (List.getElem?_eq_some_iff.mp hps).1
  omega

/-- An empty block on top changes nothing. -/
theorem producedAt_concat_nil : ProducedAt spk (c ++ [[]]) i ↔ ProducedAt spk c i := by
  rw [producedAt_iff, producedAt_iff, getElem?_append]
  split
  · rfl
  · next hle =>
    rw [getElem?_eq_none (Nat.le_of_not_lt hle), getElem?_singleton]
    split <;> rfl

/-- One production more in the top block. -/
theorem producedAt_grow (hi : 0 < i) : ProducedAt spk (c ++ [qs ++ [p]]) i ↔
    ProducedAt spk (c ++ [qs]) i ∨ i = c.length + 1 ∧ p.1 = spk := by
  rw [producedAt_iff, producedAt_iff, getElem?_append, getElem?_append]
  split
  · have hne : i ≠ c.length + 1 := by omega
    simp [hne]
  · rw [getElem?_singleton, getElem?_singleton]
    split
    · have heq : i = c.length + 1 := by omega
      simp [heq, or_and_right, exists_or]
    · have hne : i ≠ c.length + 1 := by omega
      simp [hne]

theorem producedOver_take_concat_nil :
    producedOver spk ((c ++ [[]]).take i) = producedOver spk (c.take i) := by
  rw [take_append, producedOver_append]
  cases i - c.length <;> simp [producedOver, cutsOf]

theorem producedOver_take_grow : producedOver spk ((c ++ [qs ++ [p]]).take i)
    = producedOver spk ((c ++ [qs]).take i) + if c.length < i ∧ p.1 = spk then p.2 else 0 := by
  rw [take_append, take_append, producedOver_append, producedOver_append, Nat.add_assoc]
  congr 1
  by_cases hlt : c.length < i
  · obtain ⟨j, hj⟩ := Nat.exists_eq_add_of_lt hlt
    rw [show i - c.length = j + 1 by omega]
    by_cases hspk : p.1 = spk <;> simp [producedOver, cutsOf, hspk, hlt]
  · simp [Nat.sub_eq_zero_of_le (not_lt.mp hlt), hlt]

theorem producedOver_take_mono (spk : ScriptPublicKey) (chain : ProductionChain) {lo hi : ℕ}
    (h : lo ≤ hi) : producedOver spk (chain.take lo) ≤ producedOver spk (chain.take hi) := by
  rw [producedOver_take_add spk chain h]
  exact Nat.le_add_right _ _

end Produced

namespace ProductionDb

variable {floorIndex budget k : ℕ} {db : ProductionDb} {chain added : ProductionChain}
  {floor common : ℕ} {spk : ScriptPublicKey}

/-! ### Additions -/

section Additions

variable {seed : ScriptPublicKey → ℕ} {s : ProductionDb × (ScriptPublicKey → Option ℕ)}
  {ps : List (ScriptPublicKey × ℕ)}

/-- The index of a chain during a chain change, with the running sums. -/
structure Accumulated (seed : ScriptPublicKey → ℕ) (chain : ProductionChain) (floor : ℕ)
    (s : ProductionDb × (ScriptPublicKey → Option ℕ)) : Prop where
  indexed : PrefixIndexed s.1 chain floor
  sums : ∀ spk, spk.InRange → (s.2 spk).getD (seed spk) = producedOver spk chain

theorem Accumulated.openBlock (h : Accumulated seed chain floor s)
    (hlen : chain.length + 1 < 2 ^ 64) : Accumulated seed (chain ++ [[]]) floor s where
  indexed := by
    refine ⟨by rwa [length_append], forall_mem_append.mpr ⟨h.indexed.inRange, by simp⟩,
      h.indexed.keys, fun spk hspk => ?_⟩
    obtain ⟨k, hk, hc⟩ := h.indexed.collapsed spk hspk
    refine ⟨k, hk, fun i hi hki hprod => ?_, fun i v hi hget => ?_, ?_⟩
    · rw [producedOver_take_concat_nil]
      exact hc.present i hi hki (producedAt_concat_nil.mp hprod)
    · rw [producedAt_concat_nil]
      exact hc.absent i v hi hget
    · rw [producedOver_take_concat_nil]
      exact hc.floor
  sums spk hspk := by
    rw [h.sums spk hspk, producedOver_append]
    rfl

/-- One addition to the top block. -/
theorem Accumulated.addProduction (h : Accumulated seed (chain ++ [ps]) floor s)
    {p : ScriptPublicKey × ℕ} (hp : p.1.InRange) (hfloor : floor - 1 ≤ chain.length) :
    Accumulated seed (chain ++ [ps ++ [p]]) floor
      (addProduction seed s (p.1, chain.length + 1, p.2)) := by
  have hlen : chain.length + 1 < 2 ^ 64 := by simpa using h.indexed.length_lt
  have hgrow : ∀ spk, producedOver spk (chain ++ [ps ++ [p]])
      = producedOver spk (chain ++ [ps]) + if p.1 = spk then p.2 else 0 := by
    intro spk
    have := @producedOver_take_grow spk chain ps p (chain.length + 1)
    simpa [take_of_length_le] using this
  refine ⟨⟨by rwa [length_append], ?_, fun key v hget hstart => ?_, fun spk hspk => ?_⟩,
    fun spk hspk => ?_⟩
  · obtain ⟨hchain, hps⟩ := forall_mem_append.mp h.indexed.inRange
    refine forall_mem_append.mpr ⟨hchain, forall_mem_singleton.mpr ?_⟩
    exact forall_mem_append.mpr ⟨forall_mem_singleton.mp hps, forall_mem_singleton.mpr hp⟩
  · rw [ProductionDb.addProduction, get?_insert] at hget
    split at hget
    · next heq => exact ⟨p.1, _, hp, hlen, heq⟩
    · exact h.indexed.keys key v hget hstart
  · obtain ⟨k, hk, hc⟩ := h.indexed.collapsed spk hspk
    have hkc := hk.trans hfloor
    have hkey : ∀ {i}, i < 2 ^ 64 → entryKey spk i = entryKey p.1 (chain.length + 1) →
        i = chain.length + 1 ∧ p.1 = spk := fun hi heq =>
      let ⟨hspk', hi'⟩ := entryKey_inj hspk hp hi hlen heq
      ⟨hi', hspk'.symm⟩
    refine ⟨k, hk, fun i hi hki hprod => ?_, fun i v hi hget => ?_, ?_⟩
    · have hpos := Nat.zero_lt_of_lt hki
      rw [ProductionDb.addProduction, get?_insert]
      split
      · next heq =>
        obtain ⟨rfl, rfl⟩ := hkey hi heq
        rw [take_of_length_le (by simp), hgrow, if_pos rfl, h.sums p.1 hp]
      · next hne =>
        have hold : ¬ (i = chain.length + 1 ∧ p.1 = spk) := by
          rintro ⟨rfl, rfl⟩
          exact hne rfl
        have hle := hprod.le_length hpos
        rw [length_append, length_singleton] at hle
        rw [producedOver_take_grow, if_neg fun hnew => hold ⟨by omega, hnew.2⟩]
        exact hc.present i hi hki (((producedAt_grow hpos).mp hprod).resolve_right hold)
    · rw [ProductionDb.addProduction, get?_insert] at hget
      split at hget
      · next heq =>
        obtain ⟨rfl, rfl⟩ := hkey hi heq
        exact ⟨by omega, (producedAt_grow (Nat.succ_pos _)).mpr (.inr ⟨rfl, rfl⟩)⟩
      · obtain ⟨hki, hprod⟩ := hc.absent i v hi hget
        exact ⟨hki, (producedAt_grow (Nat.zero_lt_of_lt hki)).mpr (.inl hprod)⟩
    · rw [producedOver_take_grow, if_neg fun hlt => absurd hkc hlt.1.not_ge]
      refine (congrArg (Option.getD · 0) ?_).trans hc.floor
      exact get?_insert_of_ne _ _ (entryKey_ne_floorKey _ _ _).symm
  · rw [hgrow, ← h.sums spk hspk, ProductionDb.addProduction]
    by_cases heq : p.1 = spk
    · subst heq
      simp
    · simp [heq, Ne.symm heq]

/-- The additions of a block. -/
theorem Accumulated.addBlock (h : Accumulated seed chain floor s)
    (hlen : chain.length + 1 < 2 ^ 64) (hps : ∀ p ∈ ps, p.1.InRange)
    (hfloor : floor - 1 ≤ chain.length) :
    Accumulated seed (chain ++ [ps]) floor
      ((ps.map fun p => (p.1, chain.length + 1, p.2)).foldl
        (ProductionDb.addProduction seed) s) := by
  induction ps using reverseRecOn with
  | nil => exact h.openBlock hlen
  | append_singleton ps p ih =>
    obtain ⟨hps, hp⟩ := forall_mem_append.mp hps
    rw [map_append, foldl_append]
    exact (ih hps).addProduction (hp p mem_cons_self) hfloor

/-- The additions of some blocks. -/
theorem Accumulated.addBlocks (h : Accumulated seed chain floor s)
    (hlen : chain.length + added.length < 2 ^ 64) (hadded : ∀ ps ∈ added, ∀ p ∈ ps, p.1.InRange)
    (hfloor : floor - 1 ≤ chain.length) :
    Accumulated seed (chain ++ added) floor ((added.zipIdx.flatMap fun b =>
      b.1.map fun p => (p.1, chain.length + 1 + b.2, p.2)).foldl
        (ProductionDb.addProduction seed) s) := by
  induction added using reverseRecOn with
  | nil => rwa [append_nil]
  | append_singleton added ps ih =>
    rw [length_append, length_singleton] at hlen
    obtain ⟨hadded, hps⟩ := forall_mem_append.mp hadded
    have hindex : chain.length + 1 + (0 + added.length) = (chain ++ added).length + 1 := by
      rw [length_append]
      omega
    rw [zipIdx_append, flatMap_append, foldl_append, zipIdx_singleton, flatMap_singleton, hindex,
      ← append_assoc]
    refine (ih (by omega) hadded).addBlock ?_ (forall_mem_singleton.mp hps) ?_
    · rw [length_append]
      omega
    · rw [length_append]
      omega

end Additions

/-! ### A change of the chain -/

/-- The keys deleted for the blocks above the split. -/
def removedKeys (chain : ProductionChain) (common : ℕ) : List ByteKey :=
  ((chain.drop common).reverse.zipIdx.flatMap fun b =>
    b.1.map fun p => (p.1, chain.length - b.2)).map fun r => entryKey r.1 r.2

/-- Those are the keys of the productions above the split. -/
theorem mem_removedKeys (hcommon : common ≤ chain.length) {key : ByteKey} :
    key ∈ removedKeys chain common ↔
      ∃ spk i, common < i ∧ i ≤ chain.length ∧ ProducedAt spk chain i ∧
        key = entryKey spk i := by
  simp only [removedKeys, mem_map, mem_flatMap]
  constructor
  · rintro ⟨r, ⟨⟨ps, j⟩, hb, p, hp, rfl⟩, rfl⟩
    have hget := mem_zipIdx_iff_getElem?.mp hb
    have hj : j < (chain.drop common).length := by
      have := (List.getElem?_eq_some_iff.mp hget).1
      simpa using this
    rw [getElem?_reverse hj, getElem?_drop] at hget
    rw [length_drop] at hj hget
    refine ⟨p.1, chain.length - j, by omega, Nat.sub_le _ _, ⟨ps, ?_, p, hp, rfl⟩, rfl⟩
    rw [← hget]
    congr 1
    omega
  · rintro ⟨spk, i, hlo, hhi, ⟨ps, hps, p, hp, rfl⟩, rfl⟩
    refine ⟨(p.1, i), ⟨(ps, chain.length - i), ?_, p, hp, ?_⟩, rfl⟩
    · have hj : chain.length - i < (chain.drop common).length := by
        rw [length_drop]
        omega
      refine mem_zipIdx_iff_getElem?.mpr ?_
      rw [getElem?_reverse hj, getElem?_drop, length_drop, ← hps]
      congr 1
      omega
    · rw [Nat.sub_sub_self hhi]

/-- The blocks above the split go. -/
theorem PrefixIndexed.truncate (h : PrefixIndexed db chain floor) (hcommon : common ≤ chain.length)
    (hfloor : floor - 1 ≤ common) :
    PrefixIndexed (db.eraseAll (removedKeys chain common)) (chain.take common) floor := by
  have htake : (chain.take common).length = common := length_take_of_le hcommon
  have hkept : ∀ {spk i}, 0 < i → i ≤ common →
      (ProducedAt spk (chain.take common) i ↔ ProducedAt spk chain i) := by
    intro spk i hi hle
    rw [ProducedAt, getElem?_take_of_lt (by omega), ← ProducedAt]
  have hsum : ∀ {spk i}, i ≤ common →
      producedOver spk ((chain.take common).take i) = producedOver spk (chain.take i) := by
    intro spk i hle
    rw [take_take, min_eq_left hle]
  refine ⟨htake.trans_lt (hcommon.trans_lt h.length_lt),
    fun ps hps => h.inRange ps (mem_of_mem_take hps),
    fun key v hget => h.keys key v (of_get?_eraseAll hget), fun spk hspk => ?_⟩
  obtain ⟨k, hk, hc⟩ := h.collapsed spk hspk
  refine ⟨k, hk, fun i hi hki hprod => ?_, fun i v hi hget => ?_, ?_⟩
  · have hle := (hprod.le_length (Nat.zero_lt_of_lt hki)).trans_eq htake
    rw [get?_eraseAll, if_neg, hsum hle]
    · exact hc.present i hi hki ((hkept (Nat.zero_lt_of_lt hki) hle).mp hprod)
    · intro hmem
      obtain ⟨spk', j, hlo, hhi, ⟨ps, hps, p, hp, rfl⟩, heq⟩ := (mem_removedKeys hcommon).mp hmem
      have := (entryKey_inj hspk (h.inRange ps (mem_of_getElem? hps) p hp) hi
        (hhi.trans_lt h.length_lt) heq).2
      omega
  · obtain ⟨hki, hprod⟩ := hc.absent i v hi (of_get?_eraseAll hget)
    have hpos := Nat.zero_lt_of_lt hki
    refine ⟨hki, (hkept hpos ?_).mpr hprod⟩
    by_contra hgt
    rw [get?_eraseAll, if_pos ((mem_removedKeys hcommon).mpr
      ⟨spk, i, not_le.mp hgt, hprod.le_length hpos, hprod, rfl⟩)] at hget
    cases hget
  · rw [readFloor, get?_eraseAll, if_neg, hsum (hk.trans hfloor)]
    · exact hc.floor
    · intro hmem
      obtain ⟨spk', j, -, -, -, heq⟩ := (mem_removedKeys hcommon).mp hmem
      exact entryKey_ne_floorKey _ _ _ heq.symm

/-- **A chain change keeps the index.** -/
theorem PrefixIndexed.advance (h : PrefixIndexed db chain floor) (hcommon : common ≤ chain.length)
    (hfloor : floor - 1 ≤ common) (hadded : ∀ ps ∈ added, ∀ p ∈ ps, p.1.InRange)
    (hlen : common + added.length < 2 ^ 64) :
    PrefixIndexed (db.advanceProductionPrefix chain.length (chain.drop common).reverse added)
      (chain.take common ++ added) floor := by
  have htake : (chain.take common).length = common := length_take_of_le hcommon
  have hsplit : chain.length - (chain.drop common).reverse.length = common := by
    rw [length_reverse, length_drop, Nat.sub_sub_self hcommon]
  have hstart : Accumulated (fun spk => cumulativeAt db spk common) (chain.take common) floor
      (db.eraseAll (removedKeys chain common), fun _ => none) := by
    refine ⟨h.truncate hcommon hfloor, fun spk hspk => ?_⟩
    exact h.cumulativeAt_eq hspk hfloor (hcommon.trans_lt h.length_lt)
  have hend := (hstart.addBlocks (htake.symm ▸ hlen) hadded (htake.symm ▸ hfloor)).indexed
  rw [htake] at hend
  rwa [advanceProductionPrefix, hsplit]

/-! ### Collapsing -/

/-- A collapse takes the first entries below the floor index. -/
theorem collapsed_eq (floorIndex budget : ℕ) (l : List (ByteKey × ℕ)) :
    collapsed floorIndex budget l
      = (l.filter fun e => decide (keyIndex e.1 < floorIndex)).take budget := by
  induction l generalizing budget with
  | nil => cases budget <;> simp [collapsed]
  | cons e l ih =>
    cases budget with
    | zero => simp [collapsed]
    | succ budget =>
      rw [collapsed]
      split
      · next hle => rw [ih, filter_cons_of_neg (by simpa using hle)]
      · next hlt =>
        rw [ih, filter_cons_of_pos (by simpa using hlt), take_succ_cons]

/-- In a sorted list, what precedes a taken element is taken. -/
theorem mem_take_of_lt {l : List (ByteKey × ℕ)} (hl : l.Pairwise fun a b => a.1 < b.1)
    {a c : ByteKey × ℕ} (ha : a ∈ l.take budget) (hc : c ∈ l) (hlt : c.1 < a.1) :
    c ∈ l.take budget := by
  rw [← take_append_drop budget l] at hc hl
  rcases mem_append.mp hc with hc | hc
  · exact hc
  · exact absurd ((pairwise_append.mp hl).2.2 a ha c hc) hlt.not_gt

section Folded

variable {es : List (ByteKey × ℕ)} {bucket : List UInt8} {c : ℕ}
  (hmax : ∀ e ∈ es, keyBucket e.1 = bucket → e.2 ≤ c)
include hmax

omit hmax in
theorem bucket_ne {b : List UInt8} (h : b ≠ bucket) : (⟨bucket⟩ : ByteKey) ≠ ⟨b⟩ := fun heq =>
  h (congrArg ByteKey.bytes heq).symm

theorem getD_foldFloors_le : ((foldFloors es).get? ⟨bucket⟩).getD 0 ≤ c := by
  refine foldlRecOn es _ (motive := fun f : OrdMap ByteKey ℕ => (f.get? ⟨bucket⟩).getD 0 ≤ c)
    (Nat.zero_le c) fun folded h e he => ?_
  by_cases hb : keyBucket e.1 = bucket
  · rw [hb, get?_insert_self]
    exact max_le h (hmax e he hb)
  · rwa [get?_insert_of_ne _ _ (bucket_ne hb)]

/-- The folded value of an address is the greatest of its collapsed ones. -/
theorem get?_foldFloors (hmem : ∃ e ∈ es, keyBucket e.1 = bucket ∧ e.2 = c) :
    (foldFloors es).get? ⟨bucket⟩ = some c := by
  obtain ⟨e, he, hb, hc⟩ := hmem
  obtain ⟨l, r, rfl⟩ := append_of_mem he
  have hl := getD_foldFloors_le fun e' he' => hmax e' (mem_append_left _ he')
  rw [foldFloors, foldl_append, foldl_cons]
  -- The greatest value is there once its entry is folded, and stays.
  refine foldlRecOn r _ (motive := fun f : OrdMap ByteKey ℕ => f.get? ⟨bucket⟩ = some c) ?_
    fun folded h e' he' => ?_
  · rw [hb, get?_insert_self, hc]
    exact congrArg some (max_eq_right hl)
  · by_cases hb' : keyBucket e'.1 = bucket
    · rw [hb', get?_insert_self, h, Option.getD_some,
        max_eq_left (hmax e' (mem_append_right l (mem_cons_of_mem e he')) hb')]
    · rwa [get?_insert_of_ne _ _ (bucket_ne hb')]

end Folded

theorem floorKey_injective : Function.Injective fun k : ByteKey => floorKey k.bytes := by
  rintro ⟨a⟩ ⟨b⟩ h
  exact congrArg ByteKey.mk (cons.inj (congrArg ByteKey.bytes h)).2

/-- A collapse key by key: floor values of collapsed addresses rise, collapsed entries go. -/
theorem get?_collapseBelow (db : ProductionDb) (floorIndex budget : ℕ) :
    let es := collapsed floorIndex budget (db.prefixRange [entriesPrefix])
    (∀ bucket, (db.collapseBelow floorIndex budget).get? (floorKey bucket)
      = (((foldFloors es).get? ⟨bucket⟩).map fun c => max (readFloor db bucket) c).or
          ((db.eraseAll (es.map Prod.fst)).get? (floorKey bucket))) ∧
    ∀ key : ByteKey, (∀ bucket, key ≠ floorKey bucket) →
      (db.collapseBelow floorIndex budget).get? key
        = (db.eraseAll (es.map Prod.fst)).get? key := by
  intro es
  constructor
  · intro bucket
    have h := get?_foldl_insert_key (fun k _ => floorKey k.bytes)
      (fun k c => max (readFloor db k.bytes) c) ⟨bucket⟩ (fun _ _ h => floorKey_injective h)
      (foldFloors es).entries (db.eraseAll (es.map Prod.fst)) (foldFloors es).sorted
    simp only [decide_true, option_filter_true] at h
    exact h
  · intro key hkey
    exact get?_foldl_insert_of_ne _ (fun f _ => hkey f.1.bytes) _

/-- The entries a collapse takes. -/
def taken (db : ProductionDb) (floorIndex budget : ℕ) : List (ByteKey × ℕ) :=
  collapsed floorIndex budget (db.prefixRange [entriesPrefix])

/-- What is taken: entries of addresses below the floor index. -/
theorem PrefixIndexed.of_mem_taken (h : PrefixIndexed db chain floor) {e : ByteKey × ℕ}
    (he : e ∈ db.taken floorIndex budget) :
    db.get? e.1 = some e.2 ∧ ∃ spk i, spk.InRange ∧ i < 2 ^ 64 ∧ i < floorIndex ∧
      e.1 = entryKey spk i := by
  rw [taken, collapsed_eq] at he
  obtain ⟨hrange, hlt⟩ := mem_filter.mp (mem_of_mem_take he)
  obtain ⟨hget, hstart⟩ := mem_prefixRange.mp hrange
  obtain ⟨spk, i, hspk, hi, hkey⟩ := h.keys e.1 e.2 hget hstart
  rw [hkey, keyIndex_entryKey spk hi, decide_eq_true_eq] at hlt
  exact ⟨hget, spk, i, hspk, hi, hlt, hkey⟩

/-- An entry below a taken one of the same address is taken too. -/
theorem mem_taken_of_lt {i top v c : ℕ} (htop : top < 2 ^ 64)
    (hmem : (entryKey spk top, c) ∈ db.taken floorIndex budget) (hlt : i < top)
    (htopFloor : top < floorIndex) (hget : db.get? (entryKey spk i) = some v) :
    (entryKey spk i, v) ∈ db.taken floorIndex budget := by
  rw [taken, collapsed_eq] at hmem ⊢
  refine mem_take_of_lt ((sorted_prefixRange db _).filter _) hmem
    (mem_filter.mpr ⟨mem_prefixRange.mpr ⟨hget, prefix_append
      [entriesPrefix] _⟩, ?_⟩) (entryKey_lt spk htop hlt)
  rw [keyIndex_entryKey spk (hlt.trans htop)]
  exact decide_eq_true (hlt.trans htopFloor)

/-- The entries after a collapse: those not taken. -/
theorem get?_collapseBelow_entry (db : ProductionDb) (floorIndex budget : ℕ)
    (spk : ScriptPublicKey) (i : ℕ) :
    (db.collapseBelow floorIndex budget).get? (entryKey spk i)
      = if entryKey spk i ∈ (db.taken floorIndex budget).map Prod.fst then none
        else db.get? (entryKey spk i) := by
  rw [(get?_collapseBelow db floorIndex budget).2 _ (entryKey_ne_floorKey spk i),
    get?_eraseAll, taken]

section

variable (h : PrefixIndexed db chain floor)
include h

/-- The taken entries of one address lie above its collapsed index and carry its sums. -/
theorem PrefixIndexed.taken_of_bucket (hspk : spk.InRange) (hk : CollapsedAt db chain spk k)
    {e : ByteKey × ℕ} (he : e ∈ db.taken floorIndex budget) (hbucket : keyBucket e.1 = spk.bucket) :
    ∃ i, i < 2 ^ 64 ∧ i < floorIndex ∧ e.1 = entryKey spk i ∧ k < i ∧
      ProducedAt spk chain i ∧ e.2 = producedOver spk (chain.take i) := by
  obtain ⟨hget, spk', i, hspk', hi, hlt, hkey⟩ := h.of_mem_taken he
  rw [hkey, keyBucket_entryKey] at hbucket
  obtain rfl := ScriptPublicKey.eq_of_bucket_append hspk' hspk (congrArg (· ++ []) hbucket)
  rw [hkey] at hget
  obtain ⟨hki, hprod⟩ := hk.absent i e.2 hi hget
  rw [hk.present i hi hki hprod] at hget
  exact ⟨i, hi, hlt, hkey, hki, hprod, (Option.some.inj hget).symm⟩

/-- Among the taken entries of an address, if there are any, there is a highest one. -/
theorem PrefixIndexed.exists_highest_taken (hspk : spk.InRange) (hk : CollapsedAt db chain spk k)
    (hsome : ∃ e ∈ db.taken floorIndex budget, keyBucket e.1 = spk.bucket) :
    ∃ top, top < 2 ^ 64 ∧ top < floorIndex ∧ k < top ∧
      (entryKey spk top, producedOver spk (chain.take top)) ∈ db.taken floorIndex budget ∧
      ∀ i, i < 2 ^ 64 → entryKey spk i ∈ (db.taken floorIndex budget).map Prod.fst → i ≤ top := by
  obtain ⟨e, he, hmax⟩ := ((db.taken floorIndex budget).filter fun e =>
      decide (keyBucket e.1 = spk.bucket)).toFinset.exists_max_image (fun e => keyIndex e.1) <| by
    obtain ⟨e, he, hbucket⟩ := hsome
    exact ⟨e, by simp [he, hbucket]⟩
  simp only [List.mem_toFinset, mem_filter, decide_eq_true_eq] at he hmax
  obtain ⟨top, htop, hlt, hkey, hktop, -, hvalue⟩ := h.taken_of_bucket hspk hk he.1 he.2
  refine ⟨top, htop, hlt, hktop, ?_, fun i hi hin => ?_⟩
  · rw [← hkey, ← hvalue]
    exact he.1
  · obtain ⟨e', he', heq⟩ := mem_map.mp hin
    have hle := hmax e' ⟨he', by rw [heq, keyBucket_entryKey]⟩
    rwa [heq, hkey, keyIndex_entryKey spk hi, keyIndex_entryKey spk htop] at hle

/-- An address of which entries are taken is collapsed up to the highest of them. -/
theorem PrefixIndexed.collapsedAt_of_taken (hspk : spk.InRange) (hk : CollapsedAt db chain spk k)
    (hsome : ∃ e ∈ db.taken floorIndex budget, keyBucket e.1 = spk.bucket) :
    ∃ top, top < floorIndex ∧ CollapsedAt (db.collapseBelow floorIndex budget) chain spk top := by
  obtain ⟨top, htop, hltop, hktop, hmemTop, hgreatest⟩ := h.exists_highest_taken hspk hk hsome
  refine ⟨top, hltop, ?_, ?_, ?_⟩
  · intro i hi htopi hprod
    rw [get?_collapseBelow_entry, if_neg fun hin => absurd (hgreatest i hi hin) htopi.not_ge]
    exact hk.present i hi (hktop.trans htopi) hprod
  · intro i v hi hget
    rw [get?_collapseBelow_entry] at hget
    split at hget
    · cases hget
    · next hnotin =>
      obtain ⟨-, hprod⟩ := hk.absent i v hi hget
      refine ⟨?_, hprod⟩
      by_contra hle
      rcases (not_lt.mp hle).lt_or_eq with hlt | rfl
      · -- A lower entry of the address would have been taken before the top one.
        exact hnotin (mem_map_of_mem (mem_taken_of_lt htop hmemTop hlt hltop hget))
      · exact hnotin (mem_map_of_mem hmemTop)
  · have hfolded : (foldFloors (db.taken floorIndex budget)).get? ⟨spk.bucket⟩
        = some (producedOver spk (chain.take top)) := by
      refine get?_foldFloors (fun e he hbucket => ?_)
        ⟨_, hmemTop, keyBucket_entryKey spk top, rfl⟩
      obtain ⟨i, hi, -, hkey, -, -, hvalue⟩ := h.taken_of_bucket hspk hk he hbucket
      rw [hvalue]
      exact producedOver_take_mono spk chain (hgreatest i hi (hkey ▸ mem_map_of_mem he))
    rw [readFloor, (get?_collapseBelow db floorIndex budget).1, ← taken, hfolded,
      Option.map_some, Option.some_or, hk.floor]
    exact max_eq_right (producedOver_take_mono spk chain hktop.le)

/-- An address of which nothing is taken stays as it is. -/
theorem PrefixIndexed.collapsedAt_of_kept (hk : CollapsedAt db chain spk k)
    (hnone : ∀ e ∈ db.taken floorIndex budget, keyBucket e.1 ≠ spk.bucket) :
    CollapsedAt (db.collapseBelow floorIndex budget) chain spk k := by
  have hkept : ∀ i, (db.collapseBelow floorIndex budget).get? (entryKey spk i)
      = db.get? (entryKey spk i) := by
    intro i
    rw [get?_collapseBelow_entry, if_neg]
    intro hin
    obtain ⟨e, he, heq⟩ := mem_map.mp hin
    exact hnone e he (by rw [heq, keyBucket_entryKey])
  have hnotFloor : floorKey spk.bucket ∉ (db.taken floorIndex budget).map Prod.fst := by
    intro hin
    obtain ⟨e, he, heq⟩ := mem_map.mp hin
    obtain ⟨-, spk', i, -, -, -, hkey⟩ := h.of_mem_taken he
    exact entryKey_ne_floorKey spk' i _ (hkey.symm.trans heq)
  refine ⟨?_, ?_, ?_⟩
  · intro i hi hki hprod
    rw [hkept]
    exact hk.present i hi hki hprod
  · intro i v hi hget
    rw [hkept] at hget
    exact hk.absent i v hi hget
  · rw [readFloor, (get?_collapseBelow db floorIndex budget).1, ← taken,
      foldFloors, get?_foldl_insert_of_ne _ (fun e he => bucket_ne (hnone e he)) .empty,
      get?_empty, Option.map_none, get?_eraseAll, if_neg hnotFloor]
    exact hk.floor

/-- **A collapse keeps the index**, whatever its floor index and budget. -/
theorem PrefixIndexed.collapseBelow (floorIndex budget : ℕ) :
    PrefixIndexed (db.collapseBelow floorIndex budget) chain (max floor floorIndex) := by
  refine ⟨h.length_lt, h.inRange, ?_, ?_⟩
  · intro key v hkey hstart
    have hne : ∀ bucket, key ≠ floorKey bucket := by
      rintro bucket rfl
      obtain ⟨rest, heq⟩ := hstart
      exact absurd (cons.inj heq).1 (by decide)
    rw [(get?_collapseBelow db floorIndex budget).2 key hne] at hkey
    exact h.keys key v (of_get?_eraseAll hkey) hstart
  · intro spk hspk
    obtain ⟨k, hk, hcollapsed⟩ := h.collapsed spk hspk
    by_cases hsome : ∃ e ∈ db.taken floorIndex budget, keyBucket e.1 = spk.bucket
    · obtain ⟨top, htop, hnew⟩ := h.collapsedAt_of_taken hspk hcollapsed hsome
      exact ⟨top, Nat.le_sub_one_of_lt (htop.trans_le (le_max_right _ _)), hnew⟩
    · exact ⟨k, hk.trans (Nat.sub_le_sub_right (le_max_left _ _) 1),
        h.collapsedAt_of_kept hcollapsed fun e he heq => hsome ⟨e, he, heq⟩⟩

end

end ProductionDb

/-! ### Runs -/

/-- The highest floor index of the collapses among the steps. -/
def highestFloor (steps : List PrefixStep) : ℕ :=
  steps.foldr (fun s f => match s with
    | .change _ _ => f
    | .collapse floorIndex _ => max floorIndex f) 0

/-- The steps are a history of a selected chain: no change splits below a floor index of an
earlier collapse, and addresses and chain indexes are in the range of their types. -/
def AllowedSteps : PrefixNode → ℕ → List PrefixStep → Prop
  | _, _, [] => True
  | n, floor, .change removed added :: rest =>
    (removed ≤ n.chain.length ∧ floor ≤ n.chain.length - removed ∧
      (∀ ps ∈ added, ∀ p ∈ ps, p.1.InRange) ∧
      n.chain.length - removed + added.length < 2 ^ 64) ∧
      AllowedSteps (n.step (.change removed added)) floor rest
  | n, floor, .collapse floorIndex budget :: rest =>
    AllowedSteps (n.step (.collapse floorIndex budget)) (max floor floorIndex) rest

open ProductionDb in
/-- The empty index, of a chain that is its genesis. -/
theorem prefixIndexed_empty : PrefixIndexed ({} : PrefixNode).db ({} : PrefixNode).chain 0 := by
  refine ⟨Nat.two_pow_pos 64, fun _ hps => (by cases hps), fun _ _ hkey => (by cases hkey),
    fun spk _ => ⟨0, le_rfl, fun i _ hi hprod => ?_, fun _ _ _ hget => (by cases hget), rfl⟩⟩
  exact absurd (hprod.le_length hi) hi.not_ge

open ProductionDb in
/-- The index along a run. -/
theorem prefixIndexed_run (steps : List PrefixStep) :
    ∀ {n : PrefixNode} {floor : ℕ}, PrefixIndexed n.db n.chain floor →
      AllowedSteps n floor steps →
      PrefixIndexed (steps.foldl PrefixNode.step n).db (steps.foldl PrefixNode.step n).chain
        (max floor (highestFloor steps)) := by
  induction steps with
  | nil =>
    intro n floor h _
    rwa [highestFloor, foldr_nil, max_eq_left (Nat.zero_le _)]
  | cons s steps ih =>
    intro n floor h hsteps
    cases s with
    | change removed added =>
      obtain ⟨⟨hremoved, hfloor, hadded, hlen⟩, hrest⟩ := hsteps
      exact ih (h.advance (Nat.sub_le _ _) ((Nat.sub_le _ _).trans hfloor) hadded hlen) hrest
    | collapse floorIndex budget =>
      have hnext := ih (h.collapseBelow floorIndex budget) hsteps
      rw [max_assoc] at hnext
      exact hnext

open ProductionDb in
/-- **Differences of reads are brute-force sums.** Over every interleaving of chain changes and
collapses, reads at or above the highest floor index minus one differ by what the address
produced in between on the current chain. -/
theorem production_prefix_exact (steps : List PrefixStep) (hsteps : AllowedSteps {} 0 steps)
    (spk : ScriptPublicKey) (hspk : spk.InRange) (lo hi : ℕ)
    (hfloor : highestFloor steps - 1 ≤ lo) (hle : lo ≤ hi) (hhi : hi < 2 ^ 64) :
    let n := steps.foldl PrefixNode.step {}
    cumulativeAt n.db spk lo ≤ cumulativeAt n.db spk hi ∧
      cumulativeAt n.db spk hi - cumulativeAt n.db spk lo
        = producedOver spk ((n.chain.take hi).drop lo) := by
  intro n
  have hindexed := prefixIndexed_run steps prefixIndexed_empty hsteps
  rw [hindexed.cumulativeAt_eq hspk hfloor (hle.trans_lt hhi),
    hindexed.cumulativeAt_eq hspk (hfloor.trans hle) hhi, producedOver_take_add spk _ hle]
  exact ⟨Nat.le_add_right _ _, Nat.add_sub_cancel_left _ _⟩

/-- Two addresses of different script lengths, a collapse that stops after one entry and a
reorganisation of the top block. -/
theorem production_prefix_exact_reorg :
    let a : ScriptPublicKey := ⟨0, [1]⟩
    let b : ScriptPublicKey := ⟨0, [1, 1]⟩
    let n := [.change 0 [[(a, 5), (b, 3)], [(a, 2), (a, 4)], [(b, 1)]], .collapse 2 1,
      .change 1 [[(b, 7)]]].foldl PrefixNode.step {}
    ProductionDb.cumulativeAt n.db b 3 - ProductionDb.cumulativeAt n.db b 1 = 7 := by
  intro a b n
  have hrange : ∀ spk : ScriptPublicKey, spk = a ∨ spk = b → spk.InRange := by
    rintro spk (rfl | rfl) <;> exact ⟨by decide, by decide⟩
  refine (production_prefix_exact [.change 0 [[(a, 5), (b, 3)], [(a, 2), (a, 4)], [(b, 1)]],
    .collapse 2 1, .change 1 [[(b, 7)]]] ⟨⟨by decide, by decide, ?_, by decide⟩, ⟨?_, trivial⟩⟩ b
    (hrange b (.inr rfl)) 1 3 (by decide) (by decide) (by decide)).2.trans ?_
  · intro ps hps p hp
    refine hrange p.1 ?_
    revert ps p
    decide
  · refine ⟨by decide, by decide, ?_, by decide⟩
    intro ps hps p hp
    refine hrange p.1 ?_
    revert ps p
    decide
  · decide

end KeryxNode
