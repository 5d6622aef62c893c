import Mathlib.Algebra.BigOperators.Group.List.Basic
import KeryxNode.OrdMap

/-!
# Sums over Ordered Maps

The sum of a weight over the entries of a map, in any commutative monoid: a balance in the
naturals, a vector of aggregates, a multiset of encoded entries. A map changes in bulk by
losing the keys of one map and gaining the entries of another (`OrdMap.replace`), which is
how a set of coins takes a diff; `total_replace` is the one accounting identity of that step,
and every aggregate kept beside such a set is an instance of it.
-/

namespace KeryxNode

open List

namespace OrdMap

universe u v

variable {K : Type u} {V : Type v} [LinearOrder K] {k : K}

/-! ### Bulk changes -/

/-- Removes the keys of a list. -/
def eraseAll (m : OrdMap K V) (ks : List K) : OrdMap K V :=
  ks.foldl erase m

/-- The lookup after removing the keys of a list. -/
theorem get?_eraseAll (ks : List K) (m : OrdMap K V) (k : K) :
    (m.eraseAll ks).get? k = if k ∈ ks then none else m.get? k := by
  induction ks generalizing m with
  | nil => simp [eraseAll]
  | cons j ks ih =>
    change ((m.erase j).eraseAll ks).get? k = _
    rw [ih, get?_erase]
    by_cases hk : k ∈ ks
    · simp [hk]
    · by_cases hj : k = j
      · simp [hj]
      · simp [hj]

variable {m : OrdMap K V}

/-- Removing keys adds nothing. -/
theorem of_get?_eraseAll {ks : List K} {v : V} (h : (m.eraseAll ks).get? k = some v) :
    m.get? k = some v := by
  rw [get?_eraseAll] at h
  split at h
  · cases h
  · exact h

/-- Takes the keys of `gone` out and writes the entries of `new`. -/
def replace (m gone new : OrdMap K V) : OrdMap K V :=
  (m.eraseAll gone.keys).overlay new

/-- The lookup after a bulk change: what is written stands, what is only removed is gone. -/
theorem get?_replace (m gone new : OrdMap K V) (k : K) :
    (m.replace gone new).get? k
      = (new.get? k).or (if gone.contains k then none else m.get? k) := by
  rw [replace, get?_overlay, get?_eraseAll]
  by_cases hk : k ∈ gone.keys
  · rw [if_pos hk, if_pos (contains_eq_true.mpr (mem_keys_iff.mp hk))]
  · rw [if_neg hk, contains_eq_false.mpr (not_mem_keys_iff.mp hk)]
    rfl

/-- Keys that are not written stay. -/
theorem get?_foldl_insert_of_ne {α : Type*} {key : α → K} {val : OrdMap K V → α → V}
    (l : List α) (h : ∀ a ∈ l, k ≠ key a) (m : OrdMap K V) :
    (l.foldl (fun m a => m.insert (key a) (val m a)) m).get? k = m.get? k := by
  induction l generalizing m with
  | nil => rfl
  | cons a l ih =>
    rw [foldl_cons, ih fun b hb => h b (mem_cons_of_mem _ hb),
      get?_insert_of_ne _ _ (h a mem_cons_self)]

/-! ### Totals -/

variable {M : Type*} [AddCommMonoid M]

/-- The sum of a weight over the entries. -/
def total (f : K → V → M) (m : OrdMap K V) : M :=
  (m.entries.map fun e => f e.1 e.2).sum

/-- Weights that agree on the entries have the same sum. -/
theorem total_congr {f g : K → V → M} (h : ∀ k v, m.get? k = some v → f k v = g k v) :
    total f m = total g m := by
  refine congrArg sum (map_congr_left fun e he => ?_)
  exact h e.1 e.2 (get?_eq_some_iff.mpr he)

variable (f : K → V → M)

/-- Maps that list the same entries in another order have the same sum. -/
theorem total_of_perm {l : List (K × V)} (h : m.entries.Perm l) :
    total f m = (l.map fun e => f e.1 e.2).sum :=
  (h.map _).sum_eq

/-- A weight split over two addends. -/
theorem total_add (g : K → V → M) (m : OrdMap K V) :
    total (fun k v => f k v + g k v) m = total f m + total g m :=
  sum_map_add

/-- A new key adds its weight. -/
theorem total_insert (v : V) (h : m.get? k = none) :
    total f (m.insert k v) = f k v + total f m := by
  rw [total_of_perm f (perm_entries_insert v h), map_cons, sum_cons, total]

/-- A present key takes its weight away. -/
theorem total_erase {v : V} (h : m.get? k = some v) :
    f k v + total f (m.erase k) = total f m := by
  have hback : (m.erase k).insert k v = m := by
    refine ext_get? fun j => ?_
    rw [get?_insert, get?_erase]
    split
    · next hj => rw [hj, h]
    · rfl
  rw [← total_insert f v (get?_erase_self m k), hback]

/-- Entries written over a map that has none of their keys add their weights. -/
theorem total_overlay {new : OrdMap K V} (h : ∀ k v, new.get? k = some v → m.get? k = none) :
    total f (m.overlay new) = total f new + total f m := by
  have hdisjoint : (new.entries ++ m.entries).Nodup := by
    refine nodup_append.mpr ⟨new.nodup_keys.of_map, m.nodup_keys.of_map, ?_⟩
    rintro ⟨k, v⟩ hnew _ hm rfl
    have := h k v (get?_eq_some_iff.mpr hnew)
    rw [get?_eq_some_iff.mpr hm] at this
    cases this
  have hperm : (m.overlay new).entries.Perm (new.entries ++ m.entries) := by
    refine (perm_ext_iff_of_nodup (m.overlay new).nodup_keys.of_map hdisjoint).mpr ?_
    rintro ⟨k, v⟩
    rw [mem_append, ← get?_eq_some_iff, ← get?_eq_some_iff, ← get?_eq_some_iff, get?_overlay]
    cases hnew : new.get? k with
    | none => simp
    | some w => simp [h k w hnew]
  rw [total_of_perm f hperm, map_append, sum_append, total, total]

/-- A map without the keys of a part of it. -/
theorem total_eraseAll {gone : OrdMap K V} (h : ∀ k v, gone.get? k = some v → m.get? k = some v) :
    total f gone + total f (m.eraseAll gone.keys) = total f m := by
  have hback : (m.eraseAll gone.keys).overlay gone = m := by
    refine ext_get? fun k => ?_
    rw [get?_overlay, get?_eraseAll]
    cases hg : gone.get? k with
    | none => rw [if_neg (not_mem_keys_iff.mpr hg), Option.none_or]
    | some v => rw [Option.some_or, h k v hg]
  rw [← total_overlay f (fun k v hk => ?_), hback]
  rw [get?_eraseAll, if_pos (mem_keys_iff.mpr ⟨v, hk⟩)]

/-- **A consistent change balances**: removed entries are present as they stand, written keys
are absent or removed. -/
theorem total_replace {gone new : OrdMap K V}
    (hgone : ∀ k v, gone.get? k = some v → m.get? k = some v)
    (hnew : ∀ k v, new.get? k = some v → m.get? k = none ∨ gone.contains k = true) :
    total f gone + total f (m.replace gone new) = total f new + total f m := by
  rw [replace, total_overlay f, ← add_assoc, add_comm (total f gone), add_assoc,
    total_eraseAll f hgone]
  intro k v hk
  rw [get?_eraseAll]
  rcases hnew k v hk with h | h
  · rw [h, ite_self]
  · rw [if_pos (mem_keys_iff.mpr (contains_eq_true.mp h))]

end OrdMap

end KeryxNode
