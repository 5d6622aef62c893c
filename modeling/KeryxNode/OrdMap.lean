import Mathlib.Data.List.Dedup
import Mathlib.Data.List.Induction
import Mathlib.Data.List.Nodup
import Mathlib.Data.List.Perm.Subperm
import Mathlib.Order.Lattice

/-!
# Ordered Maps

A finite map over a linearly ordered key type, kept as an association list in strictly
increasing key order. Iteration order is part of the behaviour of the programs this
library serves — an ordered tree map visits its keys in order, and a database iterator
returns its rows in key order — so the list is the data and the order is its invariant,
carried as a field. Two maps with the same lookups are equal (`OrdMap.ext_get?`), which
is what lets a refinement be stated as an equality of states.
-/

namespace KeryxNode

open List

universe u v w

/-- A finite map as an association list in strictly increasing key order. -/
structure OrdMap (K : Type u) (V : Type v) [LinearOrder K] where
  /-- The entries, in key order. -/
  entries : List (K × V)
  /-- The keys increase strictly along the list. -/
  sorted : entries.Pairwise fun a b => a.1 < b.1

namespace OrdMap

variable {K : Type u} {V : Type v} {W : Type w} [LinearOrder K] {m : OrdMap K V} {k : K} {v : V}
  {j : K} {p : K → Bool}

/-! ### Lookups -/

/-- The value stored under `k` in an association list, first match first. -/
def lookup (k : K) : List (K × V) → Option V
  | [] => none
  | a :: l => if a.1 = k then some a.2 else lookup k l

/-- The value stored under `k`. -/
def get? (m : OrdMap K V) (k : K) : Option V :=
  lookup k m.entries

/-- Whether `k` has an entry. -/
def contains (m : OrdMap K V) (k : K) : Bool :=
  (m.get? k).isSome

/-- The keys in iteration order. -/
def keys (m : OrdMap K V) : List K :=
  m.entries.map Prod.fst

/-- The number of entries. -/
def size (m : OrdMap K V) : ℕ :=
  m.entries.length

/-- The map with no entry. -/
def empty : OrdMap K V :=
  ⟨[], List.Pairwise.nil⟩

instance : Inhabited (OrdMap K V) :=
  ⟨empty⟩

instance [DecidableEq V] : DecidableEq (OrdMap K V) := fun m n =>
  match decEq m.entries n.entries with
  | isTrue h => isTrue (by cases m; cases n; cases h; rfl)
  | isFalse h => isFalse fun e => h (congrArg entries e)

/-- A lookup in a sorted list succeeds exactly on the listed entries. -/
theorem lookup_eq_some_iff :
    ∀ {l : List (K × V)}, l.Pairwise (fun a b => a.1 < b.1) →
      (lookup k l = some v ↔ (k, v) ∈ l)
  | [], _ => by simp [lookup]
  | a :: l, h => by
    obtain ⟨hlt, hl⟩ := pairwise_cons.mp h
    rw [lookup]
    by_cases hk : a.1 = k
    · rw [if_pos hk, mem_cons]
      constructor
      · intro hv
        exact .inl (by rw [← hk, ← Option.some.inj hv])
      · rintro (rfl | hmem)
        · rfl
        · exact absurd (hlt _ hmem) (by simp [hk])
    · rw [if_neg hk, lookup_eq_some_iff hl, mem_cons]
      constructor
      · exact .inr
      · rintro (rfl | hmem)
        · exact absurd rfl hk
        · exact hmem

/-- A lookup finds exactly the listed entry. -/
theorem get?_eq_some_iff :
    m.get? k = some v ↔ (k, v) ∈ m.entries :=
  lookup_eq_some_iff m.sorted

/-- A key is listed exactly when its lookup succeeds. -/
theorem mem_keys_iff : k ∈ m.keys ↔ ∃ v, m.get? k = some v := by
  simp [keys, get?_eq_some_iff]

/-- A key is not listed exactly when its lookup fails. -/
theorem not_mem_keys_iff : k ∉ m.keys ↔ m.get? k = none := by
  rw [mem_keys_iff, not_exists, Option.eq_none_iff_forall_ne_some]

/-- There are as many keys as entries. -/
theorem length_keys : m.keys.length = m.size :=
  length_map _

/-- The keys are pairwise distinct. -/
theorem nodup_keys (m : OrdMap K V) : m.keys.Nodup := by
  rw [keys, Nodup, pairwise_map]
  exact m.sorted.imp fun h => h.ne

@[simp] theorem get?_empty (k : K) : (empty : OrdMap K V).get? k = none := rfl

@[simp] theorem contains_eq_true :
    m.contains k = true ↔ ∃ v, m.get? k = some v :=
  Option.isSome_iff_exists

@[simp] theorem contains_eq_false :
    m.contains k = false ↔ m.get? k = none := by
  simp [contains]

/-- Two sorted lists with the same members are equal. -/
theorem entries_eq_of_mem_iff :
    ∀ {l₁ l₂ : List (K × V)}, l₁.Pairwise (fun a b => a.1 < b.1) →
      l₂.Pairwise (fun a b => a.1 < b.1) → (∀ e, e ∈ l₁ ↔ e ∈ l₂) → l₁ = l₂
  | [], [], _, _, _ => rfl
  | [], b :: l₂, _, _, h => absurd ((h b).mpr mem_cons_self) (by simp)
  | a :: l₁, [], _, _, h => absurd ((h a).mp mem_cons_self) (by simp)
  | a :: l₁, b :: l₂, h₁, h₂, h => by
    obtain ⟨ha, hl₁⟩ := pairwise_cons.mp h₁
    obtain ⟨hb, hl₂⟩ := pairwise_cons.mp h₂
    -- The heads are the entries of least key, so each list's head is the other's.
    have hab : a = b := by
      rcases mem_cons.mp ((h a).mp mem_cons_self) with rfl | ha'
      · rfl
      · rcases mem_cons.mp ((h b).mpr mem_cons_self) with rfl | hb'
        · rfl
        · exact absurd (hb _ ha') (not_lt.mpr (ha _ hb').le)
    subst hab
    refine congrArg (a :: ·) (entries_eq_of_mem_iff hl₁ hl₂ fun e => ?_)
    constructor
    · intro he
      rcases mem_cons.mp ((h e).mp (mem_cons_of_mem _ he)) with rfl | he'
      · exact absurd (ha _ he) (lt_irrefl _)
      · exact he'
    · intro he
      rcases mem_cons.mp ((h e).mpr (mem_cons_of_mem _ he)) with rfl | he'
      · exact absurd (hb _ he) (lt_irrefl _)
      · exact he'

/-- **Extensionality**: a map is its lookups. -/
theorem ext_get? {n : OrdMap K V} (h : ∀ k, m.get? k = n.get? k) : m = n := by
  have he : m.entries = n.entries := by
    refine entries_eq_of_mem_iff m.sorted n.sorted fun ⟨k, v⟩ => ?_
    rw [← get?_eq_some_iff, ← get?_eq_some_iff, h]
  cases m; cases n; cases he; rfl

/-! ### Insertion -/

/-- Insertion into a sorted association list, replacing an entry of the same key. -/
def insertEntry (k : K) (v : V) : List (K × V) → List (K × V)
  | [] => [(k, v)]
  | a :: l =>
    if k < a.1 then (k, v) :: a :: l
    else if k = a.1 then (k, v) :: l
    else a :: insertEntry k v l

/-- The members of an insertion are the new entry and the old ones of other keys, up to
the old entry of the same key. -/
theorem mem_insertEntry {e : K × V} :
    ∀ {l : List (K × V)}, e ∈ insertEntry k v l → e = (k, v) ∨ e ∈ l
  | [], h => Or.inl (mem_singleton.mp h)
  | a :: l, h => by
    rw [insertEntry] at h
    split at h
    · exact mem_cons.mp h
    · split at h
      · exact (mem_cons.mp h).imp id (mem_cons_of_mem _)
      · rcases mem_cons.mp h with rfl | h
        · exact Or.inr mem_cons_self
        · exact (mem_insertEntry h).imp id (mem_cons_of_mem _)

/-- Insertion keeps the key order. -/
theorem pairwise_insertEntry :
    ∀ {l : List (K × V)}, l.Pairwise (fun a b => a.1 < b.1) →
      (insertEntry k v l).Pairwise fun a b => a.1 < b.1
  | [], _ => pairwise_singleton _ _
  | a :: l, h => by
    obtain ⟨ha, hl⟩ := pairwise_cons.mp h
    rw [insertEntry]
    split
    · next hk =>
      exact pairwise_cons.mpr ⟨forall_mem_cons.mpr ⟨hk, fun e he => hk.trans (ha e he)⟩, h⟩
    · split
      · next hk => exact pairwise_cons.mpr ⟨fun e he => hk ▸ ha _ he, hl⟩
      · next hlt hne =>
        refine pairwise_cons.mpr ⟨fun e he => ?_, pairwise_insertEntry hl⟩
        rcases mem_insertEntry he with rfl | he
        · exact lt_of_le_of_ne (not_lt.mp hlt) (Ne.symm hne)
        · exact ha _ he

/-- Inserts `v` under `k`, replacing the value stored there. -/
def insert (m : OrdMap K V) (k : K) (v : V) : OrdMap K V :=
  ⟨insertEntry k v m.entries, pairwise_insertEntry m.sorted⟩

/-- The lookup after an insertion into a sorted list. -/
theorem lookup_insertEntry (k j : K) (v : V) :
    ∀ {l : List (K × V)}, l.Pairwise (fun a b => a.1 < b.1) →
      lookup j (insertEntry k v l) = if j = k then some v else lookup j l
  | [], _ => by simp [insertEntry, lookup, eq_comm]
  | a :: l, h => by
    obtain ⟨-, hl⟩ := pairwise_cons.mp h
    rw [insertEntry]
    split
    · simp [lookup, eq_comm]
    · split
      · next hk =>
        by_cases hj : j = k
        · simp [lookup, hj]
        · simp [lookup, hj, Ne.symm hj, ← hk]
      · next hne =>
        by_cases hj : j = k
        · subst hj
          simp [lookup, Ne.symm hne, lookup_insertEntry j j v hl]
        · simp [lookup, hj, lookup_insertEntry k j v hl]

/-- The lookup after an insertion. -/
theorem get?_insert (m : OrdMap K V) (k j : K) (v : V) :
    (m.insert k v).get? j = if j = k then some v else m.get? j :=
  lookup_insertEntry k j v m.sorted

@[simp] theorem get?_insert_self (m : OrdMap K V) (k : K) (v : V) :
    (m.insert k v).get? k = some v := by
  rw [get?_insert, if_pos rfl]

theorem get?_insert_of_ne (m : OrdMap K V) (v : V) (h : j ≠ k) :
    (m.insert k v).get? j = m.get? j := by
  rw [get?_insert, if_neg h]

/-- What holds of a new entry and of those before holds after an insertion. -/
@[elab_as_elim]
theorem forall_get?_insert {p : K → V → Prop} {w : V} (h : (m.insert k v).get? j = some w)
    (hnew : p k v) (hold : ∀ j w, m.get? j = some w → p j w) : p j w := by
  rw [get?_insert] at h
  split at h
  · next heq => exact heq ▸ Option.some.inj h ▸ hnew
  · exact hold j w h

theorem mem_keys_insert :
    j ∈ (m.insert k v).keys ↔ j = k ∨ j ∈ m.keys := by
  rw [mem_keys_iff, mem_keys_iff, get?_insert]
  split <;> simp_all

/-! ### Removal, filters and maps -/

/-- Keeps the entries that satisfy `p`. -/
def filter (p : K → V → Bool) (m : OrdMap K V) : OrdMap K V :=
  ⟨m.entries.filter fun e => p e.1 e.2, m.sorted.filter _⟩

/-- Removes the entry of `k`. -/
def erase (m : OrdMap K V) (k : K) : OrdMap K V :=
  m.filter fun j _ => decide (j ≠ k)

/-- Applies `f` to every value. -/
def map (f : K → V → W) (m : OrdMap K V) : OrdMap K W :=
  ⟨m.entries.map fun e => (e.1, f e.1 e.2), by
    rw [pairwise_map]
    exact m.sorted⟩

/-- The lookup after a filter. -/
theorem get?_filter (p : K → V → Bool) (m : OrdMap K V) (k : K) :
    (m.filter p).get? k = (m.get? k).filter (p k) := by
  ext v
  rw [get?_eq_some_iff, Option.filter_eq_some_iff, get?_eq_some_iff]
  exact mem_filter

/-- The lookup after a removal. -/
theorem get?_erase (m : OrdMap K V) (k j : K) :
    (m.erase k).get? j = if j = k then none else m.get? j := by
  rw [erase, get?_filter]
  cases m.get? j with
  | none => split <;> rfl
  | some v => by_cases h : j = k <;> simp [h]

@[simp] theorem get?_erase_self (m : OrdMap K V) (k : K) : (m.erase k).get? k = none := by
  rw [get?_erase, if_pos rfl]

theorem get?_erase_of_ne (m : OrdMap K V) (h : j ≠ k) :
    (m.erase k).get? j = m.get? j := by
  rw [get?_erase, if_neg h]

theorem of_get?_erase (h : (m.erase k).get? j = some v) : m.get? j = some v := by
  rw [get?_erase] at h
  split at h
  · cases h
  · exact h

/-- The keys after a filter by key. -/
theorem mem_keys_filter :
    j ∈ (m.filter fun k _ => p k).keys ↔ p j = true ∧ j ∈ m.keys := by
  rw [mem_keys_iff, mem_keys_iff, get?_filter]
  simp only [Option.filter_eq_some_iff, exists_and_right]
  exact and_comm

theorem mem_keys_erase :
    j ∈ (m.erase k).keys ↔ j ≠ k ∧ j ∈ m.keys := by
  rw [erase, mem_keys_filter, decide_eq_true_eq]

/-- The keys after a list of insertions of one value. -/
theorem mem_keys_foldl_insert {l : List K} :
    j ∈ (l.foldl (fun m k => m.insert k v) m).keys ↔ j ∈ l ∨ j ∈ m.keys := by
  induction l generalizing m with
  | nil => simp
  | cons k l ih => rw [foldl_cons, ih, mem_keys_insert, mem_cons, or_left_comm, or_assoc]

theorem keys_map (f : K → V → W) (m : OrdMap K V) : (m.map f).keys = m.keys :=
  map_map

/-- The lookup after a map. -/
theorem get?_map (f : K → V → W) (m : OrdMap K V) (k : K) :
    (m.map f).get? k = (m.get? k).map (f k) := by
  ext w
  rw [Option.map_eq_some_iff]
  simp [map, get?_eq_some_iff]

/-- Every listed entry satisfies the filter. -/
theorem of_get?_filter {p : K → V → Bool} (h : (m.filter p).get? k = some v) :
    m.get? k = some v ∧ p k v = true := by
  rw [get?_filter, Option.filter_eq_some_iff] at h
  exact h

/-! ### Last entries -/

/-- The last entry of a sorted list is one no other exceeds. -/
theorem getLast?_eq_some_of_sorted {α : Type*} (key : α → K) {l : List α} {x : α}
    (hl : l.Pairwise fun a b => key a < key b) (hx : x ∈ l) (hmax : ∀ y ∈ l, key y ≤ key x) :
    l.getLast? = some x := by
  obtain ⟨init, last, rfl⟩ := (eq_nil_or_concat' l).resolve_left (ne_nil_of_mem hx)
  rw [getLast?_concat]
  rcases mem_append.mp hx with hx | hx
  · have hlt := (pairwise_append.mp hl).2.2 x hx last (mem_singleton_self last)
    exact absurd (hmax last (by simp)) hlt.not_ge
  · rw [mem_singleton.mp hx]

/-- Along a list of writes under any keys, the last write of a key stands. -/
theorem get?_foldl_insert_last {α : Type*} (key : α → K) (val : α → V) (k : K) (l : List α)
    (m : OrdMap K V) :
    (l.foldl (fun m a => m.insert (key a) (val a)) m).get? k
      = (((l.filter fun a => decide (key a = k)).getLast?).map val).or (m.get? k) := by
  induction l using reverseRecOn with
  | nil => rfl
  | append_singleton l a ih =>
    rw [foldl_append, foldl_cons, foldl_nil, get?_insert, ih, filter_append]
    by_cases hk : k = key a
    · rw [if_pos hk, filter_cons_of_pos (by simpa using hk.symm), filter_nil,
        getLast?_concat]
      rfl
    · rw [if_neg hk, filter_cons_of_neg (by simpa using Ne.symm hk), filter_nil,
        append_nil]

/-! ### Overlays -/

/-- The map `base` with the entries of `delta` written over it. -/
def overlay (base delta : OrdMap K V) : OrdMap K V :=
  delta.entries.foldl (fun m e => m.insert e.1 e.2) base

@[simp] theorem option_filter_true {α : Type*} (o : Option α) : (o.filter fun _ => true) = o := by
  cases o <;> rfl

/-- Writing the entries of a map under other keys: only the entry of `k` may write at `j`. -/
theorem get?_foldl_insert_key {K' : Type*} {V' : Type*} [LinearOrder K'] (key : K → V → K')
    (val : K → V → V') (k : K) {j : K'} (hkey : ∀ i v, key i v = j → i = k)
    [DecidablePred fun v => key k v = j] :
    ∀ (l : List (K × V)) (m : OrdMap K' V'), l.Pairwise (fun a b => a.1 < b.1) →
      (l.foldl (fun m e => m.insert (key e.1 e.2) (val e.1 e.2)) m).get? j
        = (((lookup k l).filter fun v => decide (key k v = j)).map (val k)).or (m.get? j)
  | [], m, _ => rfl
  | a :: l, m, h => by
    obtain ⟨ha, hl⟩ := pairwise_cons.mp h
    rw [foldl_cons, get?_foldl_insert_key key val k hkey l _ hl, lookup, get?_insert]
    by_cases hk : a.1 = k
    · have hnone : lookup k l = none := by
        rw [Option.eq_none_iff_forall_ne_some]
        intro v hv
        exact absurd (ha _ ((lookup_eq_some_iff hl).mp hv)) (by simp [hk])
      by_cases hj : j = key k a.2 <;> simp [hk, hnone, hj, eq_comm, Option.filter_some]
    · rw [if_neg hk, if_neg fun h => hk (hkey _ _ h.symm)]

/-- The lookup after writing a list of entries over a map. -/
theorem get?_foldl_insert (k : K) (l : List (K × V)) (m : OrdMap K V)
    (h : l.Pairwise fun a b => a.1 < b.1) :
    (l.foldl (fun m e => m.insert e.1 e.2) m).get? k = (lookup k l).or (m.get? k) := by
  simpa using get?_foldl_insert_key (fun k _ => k) (fun _ v => v) k (fun _ _ h => h) l m h

/-- The lookup in an overlay: the upper layer wins. -/
theorem get?_overlay (base delta : OrdMap K V) (k : K) :
    (overlay base delta).get? k = (delta.get? k).or (base.get? k) :=
  get?_foldl_insert k _ _ delta.sorted

/-- An insertion into the upper layer is an insertion into the merged map. -/
theorem overlay_insert_right (base delta : OrdMap K V) (k : K) (v : V) :
    overlay base (delta.insert k v) = (overlay base delta).insert k v := by
  refine ext_get? fun j => ?_
  simp only [get?_overlay, get?_insert]
  split <;> rfl

@[simp] theorem overlay_empty_left (delta : OrdMap K V) : overlay empty delta = delta := by
  refine ext_get? fun k => ?_
  rw [get?_overlay, get?_empty, Option.or_none]

/-- The keys are listed in order. -/
theorem sorted_keys (m : OrdMap K V) : m.keys.Pairwise (· < ·) := by
  rw [keys, pairwise_map]
  exact m.sorted

/-- Maps with the same keys list them alike. -/
theorem keys_eq_of_mem_iff {n : OrdMap K W} (h : ∀ k, k ∈ m.keys ↔ k ∈ n.keys) :
    m.keys = n.keys := by
  have hperm : m.keys.Perm n.keys :=
    (perm_ext_iff_of_nodup m.nodup_keys n.nodup_keys).mpr h
  exact hperm.eq_of_pairwise (fun a b _ _ hab hba => absurd hab hba.asymm) m.sorted_keys
    n.sorted_keys

/-! ### Entries after an insertion -/

/-- Membership after an insertion. -/
theorem mem_entries_insert {e : K × V} :
    e ∈ (m.insert k v).entries ↔ e = (k, v) ∨ e.1 ≠ k ∧ e ∈ m.entries := by
  obtain ⟨j, w⟩ := e
  rw [← get?_eq_some_iff, ← get?_eq_some_iff, get?_insert]
  split
  · next h => simp [h, eq_comm]
  · next h => simp [h]

/-- A new key adds one entry. -/
theorem perm_entries_insert (v : V) (h : m.get? k = none) :
    (m.insert k v).entries.Perm ((k, v) :: m.entries) := by
  have hnew : ∀ e ∈ m.entries, e.1 ≠ k := by
    rintro ⟨j, w⟩ he rfl
    rw [get?_eq_some_iff.mpr he] at h
    cases h
  refine (perm_ext_iff_of_nodup ?_ ?_).mpr fun e => ?_
  · exact (m.insert k v).nodup_keys.of_map
  · exact nodup_cons.mpr ⟨fun he => hnew _ he rfl, m.nodup_keys.of_map⟩
  · rw [mem_entries_insert, mem_cons]
    constructor
    · exact fun he => he.imp_right And.right
    · exact fun he => he.imp_right fun he => ⟨hnew e he, he⟩

/-- Filtering by key after writing a key that passes. -/
theorem filter_insert_of_pos (m : OrdMap K V) (v : V) (h : p k = true) :
    (m.insert k v).filter (fun j _ => p j) = (m.filter fun j _ => p j).insert k v := by
  refine ext_get? fun j => ?_
  simp only [get?_filter, get?_insert]
  split
  · next hj => simp [hj, h]
  · rfl

/-- Filtering by key after writing a key that does not pass. -/
theorem filter_insert_of_neg (m : OrdMap K V) (v : V) (h : p k = false) :
    (m.insert k v).filter (fun j _ => p j) = m.filter fun j _ => p j := by
  refine ext_get? fun j => ?_
  simp only [get?_filter, get?_insert]
  split
  · next hj =>
    subst hj
    cases m.get? j <;> simp [h]
  · rfl

/-- Writing at or past the highest key leaves the entries below it, then the new one. -/
theorem entries_insert_of_le (v : V) (h : ∀ e ∈ m.entries, e.1 ≤ k) :
    (m.insert k v).entries = (m.entries.filter fun e => decide (e.1 < k)) ++ [(k, v)] := by
  refine entries_eq_of_mem_iff (m.insert k v).sorted ?_ fun e => ?_
  · refine pairwise_append.mpr ⟨m.sorted.filter _, pairwise_singleton _ _, ?_⟩
    intro a ha b hb
    rw [mem_singleton.mp hb]
    exact of_decide_eq_true (mem_filter.mp ha).2
  · rw [mem_entries_insert, mem_append, mem_filter, mem_singleton, decide_eq_true_eq]
    constructor
    · rintro (he | ⟨hne, he⟩)
      · exact .inr he
      · exact .inl ⟨he, lt_of_le_of_ne (h e he) hne⟩
    · rintro (⟨he, hlt⟩ | he)
      · exact .inr ⟨hlt.ne, he⟩
      · exact .inl he

/-! ### Sizes -/

/-- A map whose keys are drawn from a list is no larger than the list without
repetitions. -/
theorem size_le_of_keys_subset {l : List K} (h : ∀ k v, m.get? k = some v → k ∈ l) :
    m.size ≤ l.dedup.length := by
  have hsub : m.keys ⊆ l.dedup := by
    intro k hk
    obtain ⟨v, hv⟩ := mem_keys_iff.mp hk
    exact mem_dedup.mpr (h k v hv)
  calc m.size = m.keys.length := (length_map _).symm
    _ ≤ l.dedup.length := (subperm_of_subset m.nodup_keys hsub).length_le

end OrdMap

end KeryxNode
