import KeryxNode.ByteKeys
import KeryxNode.Collateral
import KeryxNode.OrdMapSum

/-!
# The Production Prefix Index

For every address the index stores, at each selected-chain index where it produced, the sum of
its cuts up to there (`model/stores/windowed_production_prefix.rs`). A windowed sum is then a
difference of two reads, each a reverse seek within the keys of the address. A selected-chain
change deletes the entries above the split and writes the new ones, seeded from the sum at the
split; pruning folds the lowest entries of each address into a floor value, a budget of entries
at a time and in key order over all addresses.

The store is an ordered map of byte keys; a value is the number its eight bytes hold.
-/

namespace KeryxNode

open ByteCodec List

/-! ### Keys -/

/-- The bytes of an address in a key: version, script length, script. -/
def ScriptPublicKey.bucket (spk : ScriptPublicKey) : List UInt8 :=
  leBytes 2 spk.version ++ (leBytes 8 spk.script.length ++ spk.script)

/-- Version and script length are in the range of the source's integer types. -/
def ScriptPublicKey.InRange (spk : ScriptPublicKey) : Prop :=
  spk.version < 2 ^ 16 ∧ spk.script.length < 2 ^ 64

/-- The store: the keys of the index with the values under them. -/
abbrev ProductionDb := OrdMap ByteKey ℕ

namespace ProductionDb

/-- Registry byte of the entries. -/
def entriesPrefix : UInt8 := 46

/-- Registry byte of the floor values. -/
def floorPrefix : UInt8 := 47

/-- The common start of the entry keys of an address. -/
def spkRange (spk : ScriptPublicKey) : List UInt8 :=
  entriesPrefix :: spk.bucket

/-- The key of the entry of an address at a chain index. -/
def entryKey (spk : ScriptPublicKey) (index : ℕ) : ByteKey :=
  ⟨spkRange spk ++ beBytes 8 index⟩

/-- The key of a floor value, by the bytes of the address. -/
def floorKey (bucket : List UInt8) : ByteKey :=
  ⟨floorPrefix :: bucket⟩

/-- The chain index in an entry key. -/
def keyIndex (k : ByteKey) : ℕ :=
  beValue (k.bytes.drop (k.bytes.length - 8))

/-- The bytes of the address in an entry key. -/
def keyBucket (k : ByteKey) : List UInt8 :=
  (k.bytes.take (k.bytes.length - 8)).drop 1

/-! ### Operations -/

variable (db : ProductionDb)

/-- The floor value of an address. -/
def readFloor (bucket : List UInt8) : ℕ :=
  (db.get? (floorKey bucket)).getD 0

/-- The sum of the cuts of an address up to a chain index. -/
def cumulativeAt (spk : ScriptPublicKey) (index : ℕ) : ℕ :=
  match db.seekForPrev (spkRange spk) (entryKey spk index) with
  | some cumulative => cumulative
  | none => readFloor db spk.bucket

/-- One addition: the sum is seeded from the committed one at the split, then accumulated. -/
def addProduction (seed : ScriptPublicKey → ℕ) (s : ProductionDb × (ScriptPublicKey → Option ℕ))
    (a : ScriptPublicKey × ℕ × ℕ) : ProductionDb × (ScriptPublicKey → Option ℕ) :=
  let newCum := (s.2 a.1).getD (seed a.1) + a.2.2
  (s.1.insert (entryKey a.1 a.2.1) newCum, Function.update s.2 a.1 (some newCum))

/-- Extends the index along a chain change: removals `(address, index)`, then additions
`(address, index, cut)`. Sums are read from the committed store. -/
def extend (common : ℕ) (removals : List (ScriptPublicKey × ℕ))
    (additions : List (ScriptPublicKey × ℕ × ℕ)) : ProductionDb :=
  (additions.foldl (addProduction fun spk => cumulativeAt db spk common)
    (db.eraseAll (removals.map fun r => entryKey r.1 r.2), fun _ => none)).1

/-- Extends the index along a chain path, given the productions of its removed blocks, tip
first, and of its added ones, lowest first. -/
def advanceProductionPrefix (fromTip : ℕ) (removed added : List (List (ScriptPublicKey × ℕ))) :
    ProductionDb :=
  let common := fromTip - removed.length
  extend db common
    (removed.zipIdx.flatMap fun b => b.1.map fun p => (p.1, fromTip - b.2))
    (added.zipIdx.flatMap fun b => b.1.map fun p => (p.1, common + 1 + b.2, p.2))

/-- The entries a collapse takes: in key order, those below the floor index, up to the
budget. -/
def collapsed (floorIndex : ℕ) : ℕ → List (ByteKey × ℕ) → List (ByteKey × ℕ)
  | _, [] => []
  | 0, _ :: _ => []
  | budget + 1, e :: es =>
    if floorIndex ≤ keyIndex e.1 then collapsed floorIndex (budget + 1) es
    else e :: collapsed floorIndex budget es

/-- The greatest collapsed value by address. -/
def foldFloors (es : List (ByteKey × ℕ)) : OrdMap ByteKey ℕ :=
  es.foldl (fun folded e =>
    folded.insert ⟨keyBucket e.1⟩ (max ((folded.get? ⟨keyBucket e.1⟩).getD 0) e.2)) .empty

/-- Folds the entries below the floor index into the floor values, at most `entryBudget` of
them. -/
def collapseBelow (floorIndex entryBudget : ℕ) : ProductionDb :=
  let es := collapsed floorIndex entryBudget (db.prefixRange [entriesPrefix])
  (foldFloors es).entries.foldl
    (fun out f => out.insert (floorKey f.1.bytes) (max (readFloor db f.1.bytes) f.2))
    (db.eraseAll (es.map Prod.fst))

end ProductionDb

/-! ### The chain -/

/-- The productions of the chain blocks, that of index 1 first. -/
abbrev ProductionChain := List (List (ScriptPublicKey × ℕ))

/-- The sum of the cuts of an address among the productions of a block. -/
def cutsOf (spk : ScriptPublicKey) (productions : List (ScriptPublicKey × ℕ)) : ℕ :=
  ((productions.filter fun p => decide (p.1 = spk)).map Prod.snd).sum

/-- The sum of the cuts of an address over chain blocks. -/
def producedOver (spk : ScriptPublicKey) (chain : ProductionChain) : ℕ :=
  (chain.map (cutsOf spk)).sum

/-- What happens to the index. -/
inductive PrefixStep where
  /-- The top blocks of the chain are replaced: how many are removed, and what is added. -/
  | change (removed : ℕ) (added : ProductionChain)
  /-- Pruning collapses entries. -/
  | collapse (floorIndex entryBudget : ℕ)

/-- The chain with its index. -/
structure PrefixNode where
  chain : ProductionChain := []
  db : ProductionDb := .empty

namespace PrefixNode

/-- One step. -/
def step (n : PrefixNode) : PrefixStep → PrefixNode
  | .change removed added =>
    let common := n.chain.length - removed
    ⟨n.chain.take common ++ added,
      n.db.advanceProductionPrefix n.chain.length (n.chain.drop common).reverse added⟩
  | .collapse floorIndex entryBudget => { n with db := n.db.collapseBelow floorIndex entryBudget }

end PrefixNode

/-! ### Reading keys -/

theorem leBytes_inj {w a b : ℕ} (ha : a < 256 ^ w) (hb : b < 256 ^ w)
    (h : leBytes w a = leBytes w b) : a = b := by
  have hvalue := congrArg leValue h
  rwa [leValue_leBytes, leValue_leBytes, Nat.mod_eq_of_lt ha, Nat.mod_eq_of_lt hb] at hvalue

/-- The bytes of an address delimit themselves. -/
theorem ScriptPublicKey.eq_of_bucket_append {spk spk' : ScriptPublicKey} (h : spk.InRange)
    (h' : spk'.InRange) {rest rest' : List UInt8}
    (heq : spk.bucket ++ rest = spk'.bucket ++ rest') : spk = spk' := by
  obtain ⟨v', script'⟩ := spk'
  simp only [bucket, append_assoc] at heq
  obtain ⟨hv, htail⟩ := append_inj heq (by simp)
  obtain ⟨hn, hscript⟩ := append_inj htail (by simp)
  obtain rfl := leBytes_inj (by simpa [InRange] using h.1) (by simpa [InRange] using h'.1) hv
  have hlen := leBytes_inj (by simpa [InRange] using h.2) (by simpa [InRange] using h'.2) hn
  obtain ⟨rfl, -⟩ := append_inj hscript hlen
  rfl

namespace ProductionDb

variable {spk spk' : ScriptPublicKey} {i j : ℕ}

theorem spkRange_starts (spk : ScriptPublicKey) (i : ℕ) : spkRange spk <+: (entryKey spk i).bytes :=
  prefix_append _ _

/-- An entry key under the range of an address is one of that address. -/
theorem eq_of_spkRange_starts (h : spk.InRange) (h' : spk'.InRange)
    (hrange : spkRange spk <+: (entryKey spk' i).bytes) : spk = spk' := by
  obtain ⟨rest, heq⟩ := hrange
  exact ScriptPublicKey.eq_of_bucket_append h h' (cons.inj heq).2

theorem entryKey_inj (h : spk.InRange) (h' : spk'.InRange) (hi : i < 2 ^ 64) (hj : j < 2 ^ 64)
    (heq : entryKey spk i = entryKey spk' j) : spk = spk' ∧ i = j := by
  obtain rfl := eq_of_spkRange_starts h h' (heq ▸ spkRange_starts spk i)
  exact ⟨rfl, ByteKey.append_beBytes_inj (by simpa using hi) (by simpa using hj)
    (congrArg ByteKey.bytes heq)⟩

/-- Entries of an address are ordered by index. -/
theorem entryKey_lt (spk : ScriptPublicKey) (hj : j < 2 ^ 64) (h : i < j) :
    entryKey spk i < entryKey spk j :=
  ByteKey.append_beBytes_lt (by simpa using hj) h

theorem entryKey_le_iff (spk : ScriptPublicKey) (hi : i < 2 ^ 64) (hj : j < 2 ^ 64) :
    entryKey spk i ≤ entryKey spk j ↔ i ≤ j := by
  constructor
  · intro h
    by_contra hlt
    exact absurd (entryKey_lt spk hi (not_le.mp hlt)) h.not_gt
  · intro h
    rcases h.lt_or_eq with hlt | rfl
    · exact (entryKey_lt spk hj hlt).le
    · exact le_rfl

theorem entryKey_ne_floorKey (spk : ScriptPublicKey) (i : ℕ) (bucket : List UInt8) :
    entryKey spk i ≠ floorKey bucket := by
  intro h
  have hhead := (cons.inj (congrArg ByteKey.bytes h)).1
  exact absurd hhead (by decide)

@[simp] theorem keyIndex_entryKey (spk : ScriptPublicKey) (hi : i < 2 ^ 64) :
    keyIndex (entryKey spk i) = i := by
  have hdrop : (entryKey spk i).bytes.drop ((entryKey spk i).bytes.length - 8) = beBytes 8 i := by
    rw [entryKey, length_append, length_beBytes, Nat.add_sub_cancel, drop_left]
  rw [keyIndex, hdrop, beValue_beBytes, Nat.mod_eq_of_lt (by simpa using hi)]

@[simp] theorem keyBucket_entryKey (spk : ScriptPublicKey) (i : ℕ) :
    keyBucket (entryKey spk i) = spk.bucket := by
  rw [keyBucket, entryKey, length_append, length_beBytes, Nat.add_sub_cancel, take_left]
  rfl

end ProductionDb

/-! ### Sums over the chain -/

/-- The address produced at the chain index. -/
def ProducedAt (spk : ScriptPublicKey) (chain : ProductionChain) (index : ℕ) : Prop :=
  ∃ ps, chain[index - 1]? = some ps ∧ ∃ p ∈ ps, p.1 = spk

section Sums

variable {spk : ScriptPublicKey} {chain : ProductionChain}

theorem cutsOf_eq_zero {ps : List (ScriptPublicKey × ℕ)} (h : ∀ p ∈ ps, p.1 ≠ spk) :
    cutsOf spk ps = 0 := by
  rw [cutsOf, filter_eq_nil_iff.mpr fun p hp => by simpa using h p hp]
  rfl

theorem producedOver_append (spk : ScriptPublicKey) (c c' : ProductionChain) :
    producedOver spk (c ++ c') = producedOver spk c + producedOver spk c' := by
  rw [producedOver, map_append, sum_append, producedOver, producedOver]

/-- The sum up to an index and over the rest. -/
theorem producedOver_take_add (spk : ScriptPublicKey) (chain : ProductionChain) {lo hi : ℕ}
    (h : lo ≤ hi) :
    producedOver spk (chain.take hi)
      = producedOver spk (chain.take lo) + producedOver spk ((chain.take hi).drop lo) := by
  rw [← producedOver_append]
  have htake : chain.take lo = (chain.take hi).take lo := by rw [take_take, min_eq_left h]
  rw [htake, take_append_drop]

/-- Indexes without a production of the address do not change the sum. -/
theorem producedOver_take_eq {lo hi : ℕ} (h : lo ≤ hi)
    (hnone : ∀ i, lo < i → i ≤ hi → ¬ ProducedAt spk chain i) :
    producedOver spk (chain.take lo) = producedOver spk (chain.take hi) := by
  induction hi, h using Nat.le_induction with
  | base => rfl
  | succ n hn ih =>
    rw [ih fun i hlo hi => hnone i hlo (hi.trans n.le_succ), take_add_one,
      producedOver_append]
    cases hps : chain[n]? with
    | none => rfl
    | some ps =>
      have hzero : cutsOf spk ps = 0 := cutsOf_eq_zero fun p hp heq =>
        hnone (n + 1) (Nat.lt_succ_of_le hn) le_rfl ⟨ps, hps, p, hp, heq⟩
      simp [producedOver, hzero]

end Sums

/-! ### The invariant -/

namespace ProductionDb

/-- The entries of an address: those above its collapsed index `k` hold the sums of the chain,
and the floor value holds the sum up to `k`. -/
structure CollapsedAt (db : ProductionDb) (chain : ProductionChain) (spk : ScriptPublicKey)
    (k : ℕ) : Prop where
  present : ∀ i, i < 2 ^ 64 → k < i → ProducedAt spk chain i →
    db.get? (entryKey spk i) = some (producedOver spk (chain.take i))
  absent : ∀ i v, i < 2 ^ 64 → db.get? (entryKey spk i) = some v → k < i ∧ ProducedAt spk chain i
  floor : readFloor db spk.bucket = producedOver spk (chain.take k)

/-- The store indexes the chain, collapsed below the floor index at most. -/
structure PrefixIndexed (db : ProductionDb) (chain : ProductionChain) (floor : ℕ) : Prop where
  length_lt : chain.length < 2 ^ 64
  inRange : ∀ ps ∈ chain, ∀ p ∈ ps, p.1.InRange
  keys : ∀ k v, db.get? k = some v → [entriesPrefix] <+: k.bytes →
    ∃ spk i, spk.InRange ∧ i < 2 ^ 64 ∧ k = entryKey spk i
  collapsed : ∀ spk, spk.InRange → ∃ k, k ≤ floor - 1 ∧ CollapsedAt db chain spk k

variable {db : ProductionDb} {chain : ProductionChain} {floor : ℕ} {spk : ScriptPublicKey}

section

variable (h : PrefixIndexed db chain floor)
include h

/-- The keys under the range of an address are its entries. -/
theorem PrefixIndexed.key_of_range (hspk : spk.InRange) {key : ByteKey} {v : ℕ}
    (hkey : db.get? key = some v) (hrange : spkRange spk <+: key.bytes) :
    ∃ i, i < 2 ^ 64 ∧ key = entryKey spk i := by
  have hentries : [entriesPrefix] <+: key.bytes :=
    (prefix_append [entriesPrefix] spk.bucket).trans hrange
  obtain ⟨spk', i, hspk', hi, rfl⟩ := h.keys key v hkey hentries
  obtain rfl := eq_of_spkRange_starts hspk hspk' hrange
  exact ⟨i, hi, rfl⟩

/-- **A read is the sum over the chain**, at or above the collapsed index. -/
theorem PrefixIndexed.cumulativeAt_of_collapsed (hspk : spk.InRange) {k t : ℕ}
    (hk : CollapsedAt db chain spk k) (hkt : k ≤ t) (ht : t < 2 ^ 64) :
    cumulativeAt db spk t = producedOver spk (chain.take t) := by
  classical
  by_cases hsome : ∃ i, k < i ∧ i ≤ t ∧ ProducedAt spk chain i
  · -- The seek lands on the last production at or below `t`.
    obtain ⟨i₀, hi₀⟩ := hsome
    let p : ℕ → Prop := fun i => k < i ∧ ProducedAt spk chain i
    have hp : p (Nat.findGreatest p t) := Nat.findGreatest_spec hi₀.2.1 ⟨hi₀.1, hi₀.2.2⟩
    have hle := Nat.findGreatest_le (P := p) t
    have hseek : db.seekForPrev (spkRange spk) (entryKey spk t)
        = some (producedOver spk (chain.take (Nat.findGreatest p t))) := by
      refine OrdMap.seekForPrev_eq_some (hk.present _ (hle.trans_lt ht) hp.1 hp.2)
        (spkRange_starts spk _) ((entryKey_le_iff spk (hle.trans_lt ht) ht).mpr hle)
        fun j u hj hrange hjt => ?_
      obtain ⟨i, hi, rfl⟩ := h.key_of_range hspk hj hrange
      have hit := (entryKey_le_iff spk hi ht).mp hjt
      exact (entryKey_le_iff spk hi (hle.trans_lt ht)).mpr
        (Nat.le_findGreatest hit (hk.absent i u hi hj))
    rw [cumulativeAt, hseek]
    refine producedOver_take_eq hle fun i hlo hhi hprod => ?_
    exact absurd (Nat.le_findGreatest (P := p) hhi ⟨hp.1.trans hlo, hprod⟩) hlo.not_ge
  · have hseek : db.seekForPrev (spkRange spk) (entryKey spk t) = none := by
      refine OrdMap.seekForPrev_eq_none fun j u hj hrange hjt => ?_
      obtain ⟨i, hi, rfl⟩ := h.key_of_range hspk hj hrange
      obtain ⟨hki, hprod⟩ := hk.absent i u hi hj
      exact hsome ⟨i, hki, (entryKey_le_iff spk hi ht).mp hjt, hprod⟩
    rw [cumulativeAt, hseek]
    refine hk.floor.trans (producedOver_take_eq hkt fun i hlo hhi hprod => ?_)
    exact hsome ⟨i, hlo, hhi, hprod⟩

/-- A read at or above the highest floor minus one. -/
theorem PrefixIndexed.cumulativeAt_eq (hspk : spk.InRange) {t : ℕ} (hfloor : floor - 1 ≤ t)
    (ht : t < 2 ^ 64) :
    cumulativeAt db spk t = producedOver spk (chain.take t) := by
  obtain ⟨k, hk, hcollapsed⟩ := h.collapsed spk hspk
  exact h.cumulativeAt_of_collapsed hspk hcollapsed (hk.trans hfloor) ht

end

end ProductionDb

end KeryxNode
